import Daccord.RaftFleet

/-! Elections when nodes come back under new incarnations. A candidate asks every
member once in a term, so no member is counted twice, under whatever identities
it answers. -/
namespace Daccord
namespace Raft

variable {V W : Type} {N : ℕ}

def casts : RaftMessage V → Bool
  | .requestVote .. => true
  | .requestVoteResponse _ granted => granted
  | _ => false

/-- What a handler may do to a candidacy. -/
inductive Campaign (p : RaftProtocol V) (input : Input V) (q : RaftProtocol V) : Prop
  | same (hrole : q.role = p.role) (hterm : q.currentTerm = p.currentTerm)
      (hvotes : q.votesReceived = p.votesReceived)
  | follows (hrole : q.role = .follower) (hterm : p.currentTerm ≤ q.currentTerm)
  | counts (sender : NodeId)
      (hin : input = .message sender (.requestVoteResponse p.currentTerm true))
      (hp : p.role = .candidate) (hrole : q.role = .candidate)
      (hterm : q.currentTerm = p.currentTerm)
      (hvotes : q.votesReceived = insert sender p.votesReceived)
  | wins (sender : NodeId)
      (hin : input = .message sender (.requestVoteResponse p.currentTerm true))
      (hp : p.role = .candidate) (hrole : q.role = .leader)
      (hterm : q.currentTerm = p.currentTerm)
      (hq : p.quorum ≤ (insert sender p.votesReceived).card)
  | stands (hrole : q.role = .candidate) (hterm : p.currentTerm < q.currentTerm)
      (hvotes : q.votesReceived = {p.nodeId})
  | alone (hrole : q.role = .leader) (hterm : p.currentTerm ≤ q.currentTerm) (hq : p.quorum ≤ 1)

/-- What a handler may do about votes: a request for votes or a vote is all it sends. -/
structure Polls (p : RaftProtocol V) (input : Input V) (r : Reply V) : Prop where
  ident : r.1.nodeId = p.nodeId
  total : r.1.totalNodes = p.totalNodes
  change : Campaign p input r.1
  sends : ∀ out ∈ r.2, casts out.message = false ∨ r.2 = [out] ∧
    ((p.currentTerm < r.1.currentTerm ∧
        ∃ li lt, out.message = .requestVote r.1.currentTerm p.nodeId li lt) ∨
      ∃ sender t c li lt, input = .message sender (.requestVote t c li lt) ∧
        out = ⟨.peer c,.requestVoteResponse t true⟩)

section
variable {p q : RaftProtocol V} {input : Input V} {r : Reply V}

theorem Polls.silent (hid : r.1.nodeId = p.nodeId) (htotal : r.1.totalNodes = p.totalNodes)
    (hchange : Campaign p input r.1) (ho : ∀ out ∈ r.2, casts out.message = false) :
    Polls p input r :=
  ⟨hid,htotal,hchange,fun out hout => Or.inl (ho out hout)⟩

theorem Polls.stepped (h : Polls q input r) (hid : q.nodeId = p.nodeId)
    (htotal : q.totalNodes = p.totalNodes) (hrole : q.role = .follower)
    (hlt : p.currentTerm < q.currentTerm) : Polls p input r := by
  refine ⟨h.ident.trans hid,h.total.trans htotal,?_,fun out hout => ?_⟩
  · cases h.change with
    | same hr ht _ => exact .follows (hr.trans hrole) (ht ▸ hlt.le)
    | follows hr ht => exact .follows hr (hlt.le.trans ht)
    | counts _ _ hp => exact absurd (hrole.symm.trans hp) nofun
    | wins _ _ hp => exact absurd (hrole.symm.trans hp) nofun
    | stands hr ht hv => exact .stands hr (hlt.trans ht) (hv.trans (by rw [hid]))
    | alone hr ht hq => exact .alone hr (hlt.le.trans ht) (by rwa [RaftProtocol.quorum,← htotal])
  · rcases h.sends out hout with hc | ⟨hone,⟨ht,li,lt,hm⟩ | hgrant⟩
    · exact Or.inl hc
    · exact Or.inr ⟨hone,Or.inl ⟨hlt.trans ht,li,lt,by rw [hm,hid]⟩⟩
    · exact Or.inr ⟨hone,Or.inr hgrant⟩

theorem Announces.casts {out : Outgoing (RaftMessage V)} (h : RaftProtocol.Announces p out) :
    Raft.casts out.message = false := by
  obtain ⟨_,_,_,hm,_⟩ := h
  rw [hm]
  rfl

theorem broadcastOwn_leads (env : Env) (p : RaftProtocol V) (es : List (LogEntry V)) :
    let r := (p.appendOwn es).tryAdvanceCommit.broadcastWithEntries env es
    r.1.nodeId = p.nodeId ∧ r.1.totalNodes = p.totalNodes ∧ r.1.role = p.role ∧
      r.1.currentTerm = p.currentTerm ∧ r.1.votesReceived = p.votesReceived ∧
      ∀ out ∈ r.2, casts out.message = false := by
  obtain ⟨ci,ds,la,b,heq,_⟩ := (p.appendOwn es).tryAdvanceCommit_advanced.frame
  have hann := p.appendOwn_announces env es
  refine ⟨?_,?_,?_,?_,?_,fun out hout => Announces.casts (hann out hout)⟩ <;>
    (simp only [RaftProtocol.broadcastWithEntries,heq]; rfl)

theorem becomeLeader_leads (env : Env) (hp : p.pendingPersistLogFrom = none) :
    let r := p.becomeLeader env
    r.1.nodeId = p.nodeId ∧ r.1.totalNodes = p.totalNodes ∧ r.1.role = .leader ∧
      r.1.currentTerm = p.currentTerm ∧ ∀ out ∈ r.2, casts out.message = false := by
  by_cases h : p.pendingProposals = []
  · rw [RaftProtocol.becomeLeader_of_empty env p h]
    exact ⟨rfl,rfl,rfl,rfl,fun out hout =>
      Announces.casts (RaftProtocol.broadcastHeartbeat_announces env _ out hout)⟩
  · rw [RaftProtocol.becomeLeader_of_batch env p h hp]
    obtain ⟨h1,h2,h3,h4,_,h6⟩ := broadcastOwn_leads env p.takeOffice p.batch
    exact ⟨h1,h2,h3,h4,h6⟩

theorem Polls.propose (env : Env) (v : V) (hp : p.pendingPersistLogFrom = none) :
    Polls p input (p.propose env v) := by
  by_cases hr : p.role = .leader
  · rw [RaftProtocol.propose_of_leader env p v hr hp]
    obtain ⟨h1,h2,h3,h4,h5,h6⟩ := broadcastOwn_leads env p [⟨p.currentTerm,v⟩]
    exact .silent h1 h2 (.same h3 h4 h5) h6
  · obtain ⟨pend,outs,heq,hout⟩ := RaftProtocol.propose_cases env p v hr
    rw [heq]
    refine .silent rfl rfl (.same rfl rfl rfl) fun out ho => ?_
    obtain ⟨_,_,hm⟩ := hout out ho
    rw [hm]
    rfl

theorem Polls.handleForward (env : Env) (sender : NodeId) (v : V) (hops : ℕ)
    (hp : p.pendingPersistLogFrom = none) :
    Polls p input (p.handleForward env sender v hops) := by
  rcases RaftProtocol.handleForward_cases env p sender v hops with
    ⟨_,heq⟩ | ⟨_,pend,outs,heq,hout⟩
  · rw [heq]
    exact .propose env v hp
  · rw [heq]
    refine .silent rfl rfl (.same rfl rfl rfl) fun out ho => ?_
    obtain ⟨_,_,hm⟩ := hout out ho
    rw [hm]
    rfl

theorem Polls.onTick (env : Env) (hp : p.pendingPersistLogFrom = none) :
    Polls p input (p.onTick env) := by
  rcases RaftProtocol.onTick_cases env p with heq | ⟨_,heq⟩ | ⟨_,heq⟩
  · rw [heq]
    exact .silent rfl rfl (.same rfl rfl rfl) (by simp)
  · rw [heq]
    exact .silent rfl rfl (.same rfl rfl rfl) fun out hout =>
      Announces.casts (RaftProtocol.broadcastHeartbeat_announces env p out hout)
  · rw [heq]
    rcases RaftProtocol.startElection_cases env p with ⟨hq,heq⟩ | ⟨_,lost,pend,heq⟩
    · rw [heq]
      obtain ⟨h1,h2,h3,h4,h5⟩ := becomeLeader_leads (p := p.candidacy env) env hp
      exact .silent h1 h2 (.alone h3 (h4 ▸ Nat.le_succ _) hq) h5
    · rw [heq]
      refine ⟨rfl,rfl,.stands rfl (Nat.lt_succ_self _) rfl,fun out hout => ?_⟩
      rw [List.mem_singleton.mp hout]
      exact Or.inr ⟨rfl,Or.inl ⟨Nat.lt_succ_self _,_,_,rfl⟩⟩

theorem Polls.handleRequestVote (env : Env) {sender : NodeId} {term : ℕ} {candidate : NodeId}
    {li : Option ℕ} {lt : ℕ} (hin : input = .message sender (.requestVote term candidate li lt))
    (hterm : term ≤ p.currentTerm) :
    Polls p input (p.handleRequestVote env term candidate li lt) := by
  rcases RaftProtocol.handleRequestVote_cases env p term candidate li lt with
    heq | ⟨hle,_,_,heq⟩
  · rw [heq]
    exact .silent rfl rfl (.same rfl rfl rfl) (by simp [casts])
  · rw [heq]
    refine ⟨rfl,rfl,.same rfl rfl rfl,fun out hout => Or.inr ?_⟩
    rw [List.mem_singleton.mp hout]
    exact ⟨rfl,Or.inr ⟨sender,term,candidate,li,lt,hin,by rw [Nat.le_antisymm hterm hle]⟩⟩

theorem Polls.handleRequestVoteResponse (env : Env) {sender : NodeId} {term : ℕ} {granted : Bool}
    (hin : input = .message sender (.requestVoteResponse term granted))
    (hp : p.pendingPersistLogFrom = none) :
    Polls p input (p.handleRequestVoteResponse env sender term granted) := by
  rcases RaftProtocol.handleRequestVoteResponse_cases env p sender term granted with
    heq | ⟨hcand,rfl,rfl,heq | ⟨hq,heq⟩⟩
  · rw [heq]
    exact .silent rfl rfl (.same rfl rfl rfl) (by simp)
  · rw [heq]
    exact .silent rfl rfl (.counts sender hin hcand hcand rfl rfl) (by simp)
  · rw [heq]
    obtain ⟨h1,h2,h3,h4,h5⟩ := becomeLeader_leads
      (p := { p with votesReceived := insert sender p.votesReceived }) env hp
    exact .silent h1 h2 (.wins sender hin hcand h3 h4 hq) h5

theorem Polls.handleAppendEntries (env : Env) (term : ℕ) (leader : NodeId) (prev : Option ℕ)
    (prevTerm : ℕ) (es : List (LogEntry V)) (lc : Option ℕ) (hp : p.pendingPersistLogFrom = none)
    (ht : p.pendingTruncateFrom = none) :
    Polls p input (p.handleAppendEntries env term leader prev prevTerm es lc) := by
  rcases RaftProtocol.handleAppendEntries_cases env p term leader prev prevTerm es lc hp ht with
    ⟨_,heq⟩ | ⟨_,_,⟨_,ct,ci,heq⟩ | ⟨_,a,f,hadopt,hadv,heq⟩⟩
  · rw [heq]
    exact .silent rfl rfl (.same rfl rfl rfl) (by simp [casts])
  · rw [heq]
    exact .silent rfl rfl (.follows rfl le_rfl) (by simp [casts])
  · obtain ⟨_,_,ha⟩ := hadopt.frame
    obtain ⟨_,_,_,_,hf,_⟩ := hadv.frame
    rw [heq,hf,ha]
    refine .silent rfl rfl (.follows rfl le_rfl) fun out hout => ?_
    simp only [List.mem_cons,List.mem_map] at hout
    rcases hout with rfl | ⟨_,_,rfl⟩ <;> rfl

theorem Polls.handleAppendEntriesResponse (sender : NodeId) (term : ℕ) (success : Bool)
    (mi ct ci : Option ℕ) :
    Polls p input (p.handleAppendEntriesResponse sender term success mi ct ci) := by
  rcases RaftProtocol.handleAppendEntriesResponse_cases p sender term success mi ct ci with
    heq | ⟨_,_,⟨_,k,_,_,heq⟩ | ⟨next,out,hout,heq⟩⟩
  · rw [heq]
    exact .silent rfl rfl (.same rfl rfl rfl) (by simp)
  · rw [heq]
    obtain ⟨_,_,_,_,hadv,_⟩ := (RaftProtocol.tryAdvanceCommit_advanced { p with
      matchIndex := p.matchIndex.insert sender (some k)
      nextIndex := p.nextIndex.insert sender (k + 1) }).frame
    rw [hadv]
    exact .silent rfl rfl (.same rfl rfl rfl) (by simp)
  · rw [heq]
    refine .silent rfl rfl (.same rfl rfl rfl) fun out' hout' => ?_
    rw [List.mem_singleton.mp hout']
    exact Announces.casts hout

theorem Polls.dispatch (env : Env) {sender : NodeId} {msg : RaftMessage V}
    (hin : input = .message sender msg)
    (hterm : ∀ t, RaftProtocol.incomingTerm msg = some t → t ≤ p.currentTerm)
    (hp : p.pendingPersistLogFrom = none) (ht : p.pendingTruncateFrom = none) :
    Polls p input (p.dispatch env sender msg) := by
  cases msg with
  | requestVote => exact .handleRequestVote env hin (hterm _ rfl)
  | requestVoteResponse => exact .handleRequestVoteResponse env hin hp
  | appendEntries => exact .handleAppendEntries env _ _ _ _ _ _ hp ht
  | appendEntriesResponse => exact .handleAppendEntriesResponse sender _ _ _ _ _
  | forward v hops => exact .handleForward env sender v hops hp

theorem Clean.polls (hc : Clean p) (env : Env) (input : Input V) :
    Polls p input (p.handle env input) := by
  cases input with
  | propose v => exact .propose env v hc.append
  | tick => exact .onTick env hc.append
  | message sender msg =>
    change Polls p _ ((p.bumpTerm env msg).dispatch env sender msg)
    rcases p.bumpTerm_cases env msg with ⟨heq,hle⟩ | ⟨t,ht,hlt,heq⟩
    · rw [heq]
      exact .dispatch env rfl hle hc.append hc.truncate
    · rw [heq]
      refine Polls.stepped (.dispatch env rfl ?_ rfl hc.truncate) rfl rfl rfl hlt
      intro u hu
      rw [ht] at hu
      exact (Option.some.inj hu).ge

theorem Campaign.term_le (h : Campaign p input q) : p.currentTerm ≤ q.currentTerm := by
  cases h with
  | same _ ht => exact ht.ge
  | follows _ ht => exact ht
  | counts _ _ _ _ ht => exact ht.ge
  | wins _ _ _ _ ht => exact ht.ge
  | stands _ ht => exact ht.le
  | alone _ ht => exact ht

end

theorem boot_facts (A : Adapter V W) (env : Env) (id : NodeId) (total : ℕ) (cfg : RaftConfig)
    (st : RaftStorage W) :
    let q := (RaftNode.boot A env id total cfg st).protocol
    q.nodeId = id ∧ q.totalNodes = total ∧ q.currentTerm = st.term ∧
      (q.role = .follower ∨ q.role = .leader ∧ total = 1) := by
  obtain ⟨ds,la,heq,_⟩ := recover_frame A env (.new env id total cfg) st
  rw [RaftNode.boot,heq]
  refine ⟨rfl,rfl,rfl,?_⟩
  by_cases hres : resumes (.new (V := V) env id total cfg) st.term st.votedFor
  · exact Or.inr ⟨if_pos hres,hres.1⟩
  · exact Or.inl (if_neg hres)

structure Landed (p handled q : RaftProtocol V) (outgoing outs : List (Outgoing (RaftMessage V))) :
    Prop where
  ident : q.nodeId = p.nodeId
  total : q.totalNodes = p.totalNodes
  term : p.currentTerm ≤ q.currentTerm
  sent : outs <+: outgoing
  flushed : outs ≠ [] → q.currentTerm = handled.currentTerm
  role : (q.role = handled.role ∧ q.currentTerm = handled.currentTerm ∧
      q.votesReceived = handled.votesReceived) ∨
    q.role = .follower ∨ q.role = .leader ∧ p.totalNodes = 1

theorem Synced.landed {A : Adapter V W} {n : RaftNode V W} (h : Synced A n) (env : Env)
    (input : Input V) (rest : List V) (fate : Fate) :
    Landed n.protocol (turn A env n.protocol input).handled
      (n.after A env (turn A env n.protocol input) rest fate).protocol
      (turn A env n.protocol input).outgoing
      ((fate.cut ((turn A env n.protocol input).effects A)).filterMap Effect.sent) := by
  have hpolls := h.clean.polls env input
  have hle : n.protocol.currentTerm ≤ (turn A env n.protocol input).handled.currentTerm :=
    hpolls.change.term_le
  cases fate with
  | completes =>
    obtain ⟨lost,hfinal⟩ := turn_final A env n.protocol input
    simp only [RaftNode.after]
    rw [hfinal]
    exact ⟨hpolls.ident,hpolls.total,hle,Fate.sent_prefix _ .completes,fun _ => rfl,
      Or.inl ⟨rfl,rfl,rfl⟩⟩
  | dies k =>
    obtain ⟨t,v,l,ci,hstore,htorn,_,hfull⟩ := h.cut env input k
    obtain ⟨hid,htotal,hterm,hrole⟩ := boot_facts A env n.protocol.nodeId n.protocol.totalNodes
      n.protocol.config (n.storage.calls ((((turn A env n.protocol input).effects A).take
        k).filterMap Effect.stored))
    have hterm' := hterm.trans (congrArg RaftStorage.term hstore)
    refine ⟨hid,htotal,?_,Fate.sent_prefix _ (.dies k),?_,Or.inr hrole⟩
    · refine hterm'.ge.trans' ?_
      cases htorn with
      | before => exact le_rfl
      | _ => exact hle
    · intro hne
      simp only [Fate.cut,Turn.sent_cut] at hne
      have hk : (turn A env n.protocol input).calls.length ≤ k := by
        by_contra hlt
        rw [Nat.sub_eq_zero_of_le (by omega)] at hne
        exact hne List.take_zero
      exact hterm'.trans (hfull hk).1

structure Ballot (N : ℕ) where
  candidate : Fin N
  voter : Fin N
  term : ℕ
  deriving DecidableEq

def ballotOf (pkt : Daccord.Packet N (Message V)) : Option (Ballot N) :=
  match pkt.msg.variant with
  | .requestVote t .. => some ⟨pkt.src,pkt.dst,t⟩
  | .requestVoteResponse t granted => if granted then some ⟨pkt.dst,pkt.src,t⟩ else none
  | _ => none

theorem ballotOf_silent {pkt : Daccord.Packet N (Message V)} (h : casts pkt.msg.variant = false) :
    ballotOf pkt = none := by
  unfold ballotOf
  cases hm : pkt.msg.variant with
  | requestVote => simp [hm,casts] at h
  | requestVoteResponse t granted =>
    rw [hm] at h
    simpa [casts] using h
  | _ => rfl

/-- Copies of one message to two members are two ballots. -/
theorem ballotOf_ne {x y : Daccord.Packet N (Message V)} (hsrc : x.src = y.src) (hmsg : x.msg = y.msg)
    (hdst : x.dst ≠ y.dst) {b : Ballot N} (hx : ballotOf x = some b) : ballotOf y ≠ some b := by
  intro hy
  unfold ballotOf at hx hy
  rw [← hmsg,← hsrc] at hy
  cases hm : x.msg.variant with
  | requestVote t c li lt =>
    simp only [hm,Option.some.injEq] at hx hy
    exact hdst (congrArg Ballot.voter (hx.trans hy.symm))
  | requestVoteResponse t granted =>
    cases granted with
    | false => simp [hm] at hx
    | true =>
      simp only [hm,if_true,Option.some.injEq] at hx hy
      exact hdst (congrArg Ballot.candidate (hx.trans hy.symm))
  | _ => simp [hm] at hx

def Granted (sent : List (Daccord.Packet N (Message V))) (v i : Fin N) (t : ℕ) : Prop :=
  ∃ pkt ∈ sent, pkt.src = v ∧ pkt.dst = i ∧ pkt.msg.variant = .requestVoteResponse t true

def Elected (sent : List (Daccord.Packet N (Message V))) (i : Fin N) (t : ℕ) : Prop :=
  ∃ Q : Finset (Fin N), N / 2 + 1 ≤ Q.card ∧ ∀ v ∈ Q, v = i ∨ Granted sent v i t

structure Standing (R : Roster N) (sent : List (Daccord.Packet N (Message V))) (i : Fin N)
    (p : RaftProtocol V) : Prop where
  polled : p.role = .candidate → R.Distinct p.votesReceived ∧ ∀ id ∈ p.votesReceived,
    ∃ v, R.owns v id ∧ (v = i ∨ Granted sent v i p.currentTerm)
  elected : p.role = .leader → Elected sent i p.currentTerm

/-- The vote of member `v` comes in, and `p` has not counted it. -/
def Uncounted (R : Roster N) (p : RaftProtocol V) (v : Fin N) (t : ℕ) : Prop :=
  p.role = .candidate → t = p.currentTerm → ∀ id ∈ p.votesReceived, ¬ R.owns v id

section
variable {R : Roster N} {sent sent' : List (Daccord.Packet N (Message V))} {i : Fin N}
  {p q : RaftProtocol V} {input : Input V}

theorem Granted.mono (h : sent ⊆ sent') {v : Fin N} {t : ℕ} (hg : Granted sent v i t) :
    Granted sent' v i t := by
  obtain ⟨pkt,hpkt,hrest⟩ := hg
  exact ⟨pkt,h hpkt,hrest⟩

theorem Elected.mono (h : sent ⊆ sent') {t : ℕ} (he : Elected sent i t) : Elected sent' i t := by
  obtain ⟨Q,hQ,hv⟩ := he
  exact ⟨Q,hQ,fun v hmem => (hv v hmem).imp_right (Granted.mono h)⟩

theorem Elected.alone {t : ℕ} (h : N / 2 + 1 ≤ 1) : Elected sent i t :=
  ⟨{i},by simpa using h,fun v hv => Or.inl (Finset.mem_singleton.mp hv)⟩

theorem Standing.follower (hrole : p.role = .follower) : Standing R sent i p :=
  ⟨fun h => absurd (hrole.symm.trans h) nofun,fun h => absurd (hrole.symm.trans h) nofun⟩

theorem Standing.single (hN : N = 1) (hrole : p.role = .leader) : Standing R sent i p :=
  ⟨fun h => absurd (hrole.symm.trans h) nofun,fun _ => .alone (by omega)⟩

theorem Standing.mono (h : sent ⊆ sent') (hp : Standing R sent i p) : Standing R sent' i p := by
  refine ⟨fun hrole => ⟨(hp.polled hrole).1,fun id hid => ?_⟩,fun hrole => (hp.elected hrole).mono h⟩
  obtain ⟨v,hv,hor⟩ := (hp.polled hrole).2 id hid
  exact ⟨v,hv,hor.imp_right (Granted.mono h)⟩

theorem Standing.same (hp : Standing R sent i p) (hrole : q.role = p.role)
    (hterm : q.currentTerm = p.currentTerm) (hvotes : q.votesReceived = p.votesReceived) :
    Standing R sent i q := by
  refine ⟨fun h => ?_,fun h => ?_⟩
  · rw [hvotes,hterm]
    exact hp.polled (hrole ▸ h)
  · rw [hterm]
    exact hp.elected (hrole ▸ h)

/-- A vote that was not counted yet makes one more voter. -/
theorem Standing.counted (hp : Standing R sent i p) (hrole : p.role = .candidate) {sender : NodeId}
    {v : Fin N} (hv : R.owns v sender) (hg : Granted sent v i p.currentTerm)
    (hnew : Uncounted R p v p.currentTerm) :
    R.Distinct (insert sender p.votesReceived : Finset NodeId) ∧
      ∀ id ∈ insert sender p.votesReceived, ∃ w, R.owns w id ∧
        (w = i ∨ Granted sent w i p.currentTerm) := by
  obtain ⟨hd,hall⟩ := hp.polled hrole
  refine ⟨?_,fun id hid => ?_⟩
  · rw [Finset.coe_insert]
    exact hd.insert hv fun x hx hvx => absurd hvx (hnew hrole rfl x hx)
  · rcases Finset.mem_insert.mp hid with rfl | hid
    · exact ⟨v,hv,Or.inr hg⟩
    · exact hall id hid

theorem Standing.campaign (hp : Standing R sent i p) (h : Campaign p input q)
    (hid : R.owns i p.nodeId) (htotal : p.totalNodes = N)
    (hin : ∀ sender, input = .message sender (.requestVoteResponse p.currentTerm true) →
      ∃ v, R.owns v sender ∧ Granted sent v i p.currentTerm ∧ Uncounted R p v p.currentTerm) :
    Standing R sent i q := by
  cases h with
  | same hrole hterm hvotes => exact hp.same hrole hterm hvotes
  | follows hrole => exact .follower hrole
  | counts sender hinput hcand hrole hterm hvotes =>
    obtain ⟨v,hv,hg,hnew⟩ := hin sender hinput
    refine ⟨fun _ => ?_,fun h => absurd (hrole.symm.trans h) nofun⟩
    rw [hvotes,hterm]
    exact hp.counted hcand hv hg hnew
  | wins sender hinput hcand hrole hterm hq =>
    obtain ⟨v,hv,hg,hnew⟩ := hin sender hinput
    obtain ⟨hd,hall⟩ := hp.counted hcand hv hg hnew
    obtain ⟨S,hcard,hS⟩ := Roster.quorum hd hall
    refine ⟨fun h => absurd (hrole.symm.trans h) nofun,fun _ => ⟨S,?_,?_⟩⟩
    · rw [hcard]
      rwa [RaftProtocol.quorum,htotal] at hq
    · rwa [hterm]
  | stands hrole hterm hvotes =>
    refine ⟨fun _ => ?_,fun h => absurd (hrole.symm.trans h) nofun⟩
    rw [hvotes]
    refine ⟨?_,fun id hmem => ⟨i,?_,Or.inl rfl⟩⟩
    · simp only [Finset.coe_singleton]
      intro _ x y hx hy _ _
      exact (Set.mem_singleton_iff.mp hx).trans (Set.mem_singleton_iff.mp hy).symm
    · rw [Finset.mem_singleton.mp hmem]
      exact hid
  | alone hrole hterm hq =>
    refine ⟨fun h => absurd (hrole.symm.trans h) nofun,fun _ => .alone ?_⟩
    rwa [RaftProtocol.quorum,htotal] at hq

/-- A vote on its way stays uncounted as long as another one comes in. -/
theorem Uncounted.campaign (h : Campaign p input q) {v : Fin N} {t : ℕ} (hp : Uncounted R p v t)
    (ht : t ≤ p.currentTerm)
    (hin : t = p.currentTerm → ∀ sender,
      input = .message sender (.requestVoteResponse p.currentTerm true) → ¬ R.owns v sender) :
    Uncounted R q v t := by
  intro hq htq id hid
  cases h with
  | same hrole hterm hvotes => exact hp (hrole ▸ hq) (htq.trans hterm) id (hvotes ▸ hid)
  | follows hrole => exact absurd (hrole.symm.trans hq) nofun
  | counts sender hinput hcand hrole hterm hvotes =>
    rw [hvotes] at hid
    rcases Finset.mem_insert.mp hid with rfl | hid
    · exact hin (htq.trans hterm) id hinput
    · exact hp hcand (htq.trans hterm) id hid
  | wins _ _ _ hrole => exact absurd (hrole.symm.trans hq) nofun
  | stands _ hterm => omega
  | alone hrole => exact absurd (hrole.symm.trans hq) nofun

/-- Nobody but the candidate is for it when its term begins. -/
theorem Uncounted.fresh (h : Campaign p input q) {v : Fin N} (hid : R.owns i p.nodeId) (hv : v ≠ i)
    (hlt : p.currentTerm < q.currentTerm) : Uncounted R q v q.currentTerm := by
  intro hq _ id hmem howns
  cases h with
  | same _ hterm => omega
  | follows hrole => exact absurd (hrole.symm.trans hq) nofun
  | counts _ _ _ _ hterm => omega
  | wins _ _ _ hrole => exact absurd (hrole.symm.trans hq) nofun
  | stands hrole hterm hvotes =>
    rw [hvotes] at hmem
    rw [Finset.mem_singleton.mp hmem] at howns
    exact hv (R.unique howns hid)
  | alone hrole => exact absurd (hrole.symm.trans hq) nofun

end

/-- Every vote travels once, and a candidate has counted none that is still on its way. -/
structure Fleet.Polling (A : Adapter V W) (M : Named N) (s : Fleet N V W) : Prop where
  synced : ∀ i, Synced A (s.nodes i)
  ident : ∀ i, M.byName.owns i (s.nodes i).protocol.nodeId
  total : ∀ i, (s.nodes i).protocol.totalNodes = N
  flight : ∀ pkt ∈ s.flight, pkt ∈ s.sent
  senders : ∀ pkt ∈ s.flight, pkt.src ≠ pkt.dst ∧ M.byName.owns pkt.src pkt.msg.sender ∧
    ∀ {t c li lt}, pkt.msg.variant = .requestVote t c li lt → M.byName.owns pkt.src c
  once : s.flight.Pairwise fun x y => ∀ b, ballotOf x = some b → ballotOf y ≠ some b
  due : ∀ pkt ∈ s.flight, ∀ b, ballotOf pkt = some b →
    b.term ≤ (s.nodes b.candidate).protocol.currentTerm ∧
      Uncounted M.byName (s.nodes b.candidate).protocol b.voter b.term
  standing : ∀ i, Standing M.byName s.sent i (s.nodes i).protocol

section
variable {A : Adapter V W} {M : Named N} {s s' : Fleet N V W} {i : Fin N}

theorem Fleet.Polling.init (A : Adapter V W) (M : Named N) (env : Env) :
    (Fleet.init A M env).Polling A M := by
  have hnode : ∀ i, ((Fleet.init A M env).nodes i).protocol = .new env (M.ids i) N M.config :=
    fun i => boot_new A env (M.ids i) N M.config
  refine ⟨fun i => .boot A env _ _ _ _,fun i => ?_,fun i => ?_,nofun,nofun,.nil,nofun,fun i => ?_⟩
  · rw [hnode]
    exact Eq.refl (M.ids i).name
  · rw [hnode]
    rfl
  · rw [hnode]
    exact .follower rfl

theorem Fleet.Polling.lessen (h : s.Polling A M) (pos : ℕ) :
    ({ s with flight := s.flight.eraseIdx pos } : Fleet N V W).Polling A M :=
  { h with
    flight := fun pkt hpkt => h.flight pkt (List.mem_of_mem_eraseIdx hpkt)
    senders := fun pkt hpkt => h.senders pkt (List.mem_of_mem_eraseIdx hpkt)
    once := h.once.sublist (List.eraseIdx_sublist _ _)
    due := fun pkt hpkt => h.due pkt (List.mem_of_mem_eraseIdx hpkt) }

/-- Node `i` is replaced by `n`, which sends `packets`; `flight` was on its way before. -/
theorem Fleet.Polling.replaced (h : s.Polling A M) {n : RaftNode V W}
    {flight packets : List (Daccord.Packet N (Message V))} {emitted : List (Fin N × Decision V)}
    (hsub : flight.Sublist s.flight) (hsynced : Synced A n)
    (hid : M.byName.owns i n.protocol.nodeId) (htotal : n.protocol.totalNodes = N)
    (hterm : (s.nodes i).protocol.currentTerm ≤ n.protocol.currentTerm)
    (hstand : Standing M.byName (s.sent ++ packets) i n.protocol)
    (hold : ∀ x ∈ flight, ∀ b, ballotOf x = some b → b.candidate = i →
      Uncounted M.byName n.protocol b.voter b.term)
    (hsenders : ∀ y ∈ packets, y.src ≠ y.dst ∧ M.byName.owns y.src y.msg.sender ∧
      ∀ {t c li lt}, y.msg.variant = .requestVote t c li lt → M.byName.owns y.src c)
    (hnew : packets.Pairwise fun x y => ∀ b, ballotOf x = some b → ballotOf y ≠ some b)
    (hapart : ∀ x ∈ flight, ∀ y ∈ packets, ∀ b, ballotOf x = some b → ballotOf y ≠ some b)
    (hdue : ∀ y ∈ packets, ∀ b, ballotOf y = some b →
      b.term ≤ (Function.update s.nodes i n b.candidate).protocol.currentTerm ∧
        Uncounted M.byName (Function.update s.nodes i n b.candidate).protocol b.voter b.term) :
    (⟨Function.update s.nodes i n,flight ++ packets,s.sent ++ packets,emitted⟩ :
      Fleet N V W).Polling A M := by
  have hnodes := Function.forall_update_iff (a := i) (b := n) s.nodes
  have hsynced' := (hnodes fun _ n => Synced A n).mpr ⟨hsynced,fun j _ => h.synced j⟩
  have hid' := (hnodes fun j n => M.byName.owns j n.protocol.nodeId).mpr ⟨hid,fun j _ => h.ident j⟩
  have htotal' := (hnodes fun _ n => n.protocol.totalNodes = N).mpr ⟨htotal,fun j _ => h.total j⟩
  have hstand' := (hnodes fun j n => Standing M.byName (s.sent ++ packets) j n.protocol).mpr
    ⟨hstand,fun j _ => (h.standing j).mono (List.subset_append_left _ _)⟩
  refine ⟨hsynced',hid',htotal',?_,?_,
    List.pairwise_append.mpr ⟨h.once.sublist hsub,hnew,hapart⟩,?_,hstand'⟩
  · intro pkt hpkt
    rcases List.mem_append.mp hpkt with hpkt | hpkt
    · exact List.mem_append_left _ (h.flight pkt (hsub.subset hpkt))
    · exact List.mem_append_right _ hpkt
  · intro pkt hpkt
    rcases List.mem_append.mp hpkt with hpkt | hpkt
    · exact h.senders pkt (hsub.subset hpkt)
    · exact hsenders pkt hpkt
  · intro pkt hpkt b hb
    rcases List.mem_append.mp hpkt with hpkt | hpkt
    · obtain ⟨hle,hun⟩ := h.due pkt (hsub.subset hpkt) b hb
      dsimp only
      by_cases hj : b.candidate = i
      · have hself : Function.update s.nodes i n b.candidate = n := by
          rw [hj,Function.update_self]
        rw [hj] at hle
        rw [hself]
        exact ⟨hle.trans hterm,hold pkt hpkt b hb hj⟩
      · rw [Function.update_of_ne hj]
        exact ⟨hle,hun⟩
    · exact hdue pkt hpkt b hb

theorem Uncounted.idle {R : Roster N} {p : RaftProtocol V} (h : p.role ≠ .candidate) (v : Fin N)
    (t : ℕ) : Uncounted R p v t := fun hp => absurd hp h

theorem Fleet.reborn_facts (h : s.Polling A M) (i : Fin N) (env : Env) (incarnation : ℕ) :
    let n := s.reborn A M i env incarnation
    Synced A n ∧ M.byName.owns i n.protocol.nodeId ∧ n.protocol.totalNodes = N ∧
      n.protocol.currentTerm = (s.nodes i).protocol.currentTerm ∧
      (n.protocol.role = .follower ∨ n.protocol.role = .leader ∧ N = 1) := by
  obtain ⟨hid,htotal,hterm,hrole⟩ := boot_facts A env (M.born i incarnation) N M.config
    (s.nodes i).storage
  unfold Fleet.reborn
  refine ⟨.boot A env _ _ _ _,?_,htotal,hterm.trans (h.synced i).holds.term,hrole⟩
  rw [hid]
  exact Eq.refl (M.ids i).name

theorem Fleet.Polling.reborn (h : s.Polling A M) (i : Fin N) (env : Env) (incarnation : ℕ) :
    ({ s with nodes := Function.update s.nodes i (s.reborn A M i env incarnation) } :
      Fleet N V W).Polling A M := by
  obtain ⟨hsynced,hid,htotal,hterm,hrole⟩ := Fleet.reborn_facts h i env incarnation
  generalize s.reborn A M i env incarnation = n at *
  have hidle : n.protocol.role ≠ .candidate := by
    intro hcand
    rcases hrole with hrole | ⟨hrole,_⟩ <;> exact absurd (hrole.symm.trans hcand) nofun
  have hstand : Standing M.byName (s.sent ++ []) i n.protocol := by
    rcases hrole with hrole | ⟨hrole,hN⟩
    · exact .follower hrole
    · exact .single hN hrole
  have hgoal : (⟨Function.update s.nodes i n,s.flight ++ [],s.sent ++ [],s.emitted⟩ :
      Fleet N V W).Polling A M :=
    h.replaced (List.Sublist.refl s.flight) hsynced hid htotal hterm.ge hstand
      (fun x _ b _ _ => Uncounted.idle hidle _ _) (by simp) .nil (by simp) (by simp)
  simpa only [List.append_nil] using hgoal

theorem Named.mem_packets {id : NodeId} {outs : List (Outgoing (RaftMessage V))}
    {y : Daccord.Packet N (Message V)} (h : y ∈ M.packets i id outs) :
    ∃ out ∈ outs, y.src = i ∧ y.dst ≠ i ∧ M.byName.addressed y.dst out.target ∧
      y.msg = ⟨id,out.message⟩ := by
  obtain ⟨out,hout,hy⟩ := List.mem_flatMap.mp h
  obtain ⟨hsrc,hdst,hnamed,hmsg⟩ := Membership.mem_routeByName hy
  refine ⟨out,hout,hsrc,hdst,?_,hmsg⟩
  cases htarget : out.target with
  | peer id' =>
    have hnamed' : M.named y.dst out.target = true := hnamed
    rw [htarget] at hnamed'
    exact (decide_eq_true_iff (p := (M.ids y.dst).name = id'.name)).mp hnamed'
  | broadcast => trivial

/-- The copies of one message go to different members. -/
theorem Named.packets_single (M : Named N) (i : Fin N) (id : NodeId)
    (out : Outgoing (RaftMessage V)) :
    (M.packets i id [out]).Pairwise fun x y => x.dst ≠ y.dst := by
  rw [Named.packets,List.flatMap_singleton,Membership.routeByName,List.pairwise_map]
  exact (List.nodup_finRange N).sublist List.filter_sublist

/-- A vote in a packet of this turn was asked for in it, or answers the request that came in. -/
theorem Polls.cast {p : RaftProtocol V} {input : Input V} {r : Reply V} (h : Polls p input r)
    {outs : List (Outgoing (RaftMessage V))} (houts : outs <+: r.2)
    {y : Daccord.Packet N (Message V)} {b : Ballot N} (hy : y ∈ M.packets i p.nodeId outs)
    (hb : ballotOf y = some b) :
    (∃ out, outs = [out]) ∧ y.dst ≠ i ∧
    (p.currentTerm < r.1.currentTerm ∧ b = ⟨i,y.dst,r.1.currentTerm⟩ ∨
      ∃ sender t c li lt, input = .message sender (.requestVote t c li lt) ∧
        M.byName.owns y.dst c ∧ b = ⟨y.dst,i,t⟩) := by
  obtain ⟨out,hout,hsrc,hdst,haddr,hmsg⟩ := Named.mem_packets hy
  have hvar : y.msg.variant = out.message := by rw [hmsg]
  rcases h.sends out (houts.subset hout) with hc | ⟨hone,hwhy⟩
  · rw [← hvar] at hc
    rw [ballotOf_silent hc] at hb
    cases hb
  · rw [hone] at houts
    have hsingle : outs = [out] := by
      refine houts.eq_of_length_le ?_
      exact List.length_pos_of_mem hout
    refine ⟨⟨out,hsingle⟩,hdst,?_⟩
    rcases hwhy with ⟨hlt,li,lt,hm⟩ | ⟨sender,t,c,li,lt,hin,rfl⟩
    · simp only [ballotOf,hvar,hm,Option.some.injEq] at hb
      rw [hsrc] at hb
      exact Or.inl ⟨hlt,hb.symm⟩
    · simp only [ballotOf,hvar,if_true,Option.some.injEq] at hb
      rw [hsrc] at hb
      exact Or.inr ⟨sender,t,c,li,lt,hin,haddr,hb.symm⟩

/-- What a turn may start from: something local, or a packet taken off the links. -/
def Fleet.Fetched (s : Fleet N V W) (i : Fin N) (input : Input V)
    (flight : List (Daccord.Packet N (Message V))) : Prop :=
  flight.Sublist s.flight ∧ ∀ sender msg, input = .message sender msg →
    ∃ pkt ∈ s.flight, pkt.dst = i ∧ pkt.msg = ⟨sender,msg⟩ ∧
      ∀ x ∈ flight, ∀ b, ballotOf pkt = some b → ballotOf x ≠ some b

/-- A vote that comes in has been given and not been counted. -/
theorem Fleet.Polling.fetched (h : s.Polling A M) {input : Input V}
    {flight : List (Daccord.Packet N (Message V))} (hin : s.Fetched i input flight)
    {sender : NodeId} {t : ℕ} (hmsg : input = .message sender (.requestVoteResponse t true)) :
    ∃ v, M.byName.owns v sender ∧ Granted s.sent v i t ∧ t ≤ (s.nodes i).protocol.currentTerm ∧
      Uncounted M.byName (s.nodes i).protocol v t ∧
      ∀ x ∈ flight, ballotOf x ≠ some ⟨i,v,t⟩ := by
  obtain ⟨pkt,hpkt,hdst,hm,hapart⟩ := hin.2 sender _ hmsg
  have hb : ballotOf pkt = some ⟨i,pkt.src,t⟩ := by
    rw [ballotOf,hm,hdst]
    rfl
  obtain ⟨hle,hun⟩ := h.due pkt hpkt _ hb
  have howns := (h.senders pkt hpkt).2.1
  rw [hm] at howns
  exact ⟨pkt.src,howns,⟨pkt,h.flight pkt hpkt,rfl,hdst,by rw [hm]⟩,hle,hun,fun x hx =>
    hapart x hx _ hb⟩

/-- A vote that is asked for has not been counted. -/
theorem Fleet.Polling.asked (h : s.Polling A M) {input : Input V}
    {flight : List (Daccord.Packet N (Message V))} (hin : s.Fetched i input flight)
    {sender c : NodeId} {t lt : ℕ} {li : Option ℕ}
    (hmsg : input = .message sender (.requestVote t c li lt)) {v : Fin N}
    (howns : M.byName.owns v c) :
    t ≤ (s.nodes v).protocol.currentTerm ∧ Uncounted M.byName (s.nodes v).protocol i t ∧
      ∀ x ∈ flight, ballotOf x ≠ some ⟨v,i,t⟩ := by
  obtain ⟨pkt,hpkt,hdst,hm,hapart⟩ := hin.2 sender _ hmsg
  obtain rfl := M.byName.unique ((h.senders pkt hpkt).2.2 (by rw [hm])) howns
  have hb : ballotOf pkt = some ⟨pkt.src,i,t⟩ := by
    rw [ballotOf,hm,hdst]
  obtain ⟨hle,hun⟩ := h.due pkt hpkt _ hb
  exact ⟨hle,hun,fun x hx => hapart x hx _ hb⟩

/-- The role a node has in the middle of its turn. -/
theorem Fleet.Polling.handled (h : s.Polling A M) {input : Input V}
    {flight : List (Daccord.Packet N (Message V))} (hin : s.Fetched i input flight) (env : Env) :
    Standing M.byName s.sent i (turn A env (s.nodes i).protocol input).handled := by
  refine (h.standing i).campaign ((h.synced i).clean.polls env input).change (h.ident i) (h.total i)
    fun sender hmsg => ?_
  obtain ⟨v,howns,hg,_,hun,_⟩ := h.fetched hin hmsg
  exact ⟨v,howns,hg,hun⟩

theorem Landed.standing {R : Roster N} {sent : List (Daccord.Packet N (Message V))}
    {p handled q : RaftProtocol V} {outgoing outs : List (Outgoing (RaftMessage V))}
    (h : Landed p handled q outgoing outs) (hp : p.totalNodes = N)
    (hs : Standing R sent i handled) : Standing R sent i q := by
  rcases h.role with ⟨hrole,hterm,hvotes⟩ | hrole | ⟨hrole,hone⟩
  · exact hs.same hrole hterm hvotes
  · exact .follower hrole
  · exact .single (hp.symm.trans hone) hrole

theorem Landed.uncounted {R : Roster N} {p handled q : RaftProtocol V}
    {outgoing outs : List (Outgoing (RaftMessage V))} (h : Landed p handled q outgoing outs)
    {v : Fin N} {t : ℕ} (hun : Uncounted R handled v t) : Uncounted R q v t := by
  intro hcand ht
  rcases h.role with ⟨hrole,hterm,hvotes⟩ | hrole | ⟨hrole,_⟩
  · rw [hvotes]
    exact hun (hrole ▸ hcand) (ht.trans hterm)
  · exact absurd (hrole.symm.trans hcand) nofun
  · exact absurd (hrole.symm.trans hcand) nofun

theorem Fleet.Polling.take (h : s.Polling A M) {env : Env} {input : Input V} {rest : List V}
    {fate : Fate} {flight : List (Daccord.Packet N (Message V))}
    (hin : s.Fetched i input flight) :
    ({ s with flight := flight }.take A M i env input rest fate).Polling A M := by
  have hpolls := (h.synced i).clean.polls env input
  have hland := (h.synced i).landed env input rest fate
  have hstand := h.handled hin env
  have hsynced := (h.synced i).after env input rest fate
  have hcast := fun y b => hpolls.cast (M := M) (i := i) (y := y) (b := b) hland.sent
  simp only [Fleet.take]
  generalize (s.nodes i).after A env (turn A env (s.nodes i).protocol input) rest fate = n at *
  generalize (fate.cut ((turn A env (s.nodes i).protocol input).effects A)).filterMap
    Effect.sent = outs at *
  refine h.replaced hin.1 hsynced (hland.ident ▸ h.ident i) (hland.total.trans (h.total i)) hland.term
    ((hland.standing (h.total i) hstand).mono (List.subset_append_left _ _)) ?_ ?_ ?_ ?_ ?_
  · intro x hx b hb hi
    obtain ⟨hle,hun⟩ := h.due x (hin.1.subset hx) b hb
    rw [hi] at hle hun
    refine hland.uncounted (Uncounted.campaign hpolls.change hun hle fun ht sender hmsg howns => ?_)
    obtain ⟨v,hv,_,_,_,hfree⟩ := h.fetched hin hmsg
    obtain rfl := M.byName.unique hv howns
    refine hfree x hx (hb.trans ?_)
    rw [← ht,← hi]
  · intro y hy
    obtain ⟨out,hout,hsrc,hdst,haddr,hmsg⟩ := Named.mem_packets hy
    refine ⟨hsrc ▸ hdst.symm,?_,fun hm => ?_⟩
    · rw [hsrc,hmsg]
      exact h.ident i
    · have hm' : out.message = _ := (congrArg Message.variant hmsg).symm.trans hm
      rcases hpolls.sends out (hland.sent.subset hout) with hc | ⟨_,⟨_,_,_,hm''⟩ | ⟨_,_,_,_,_,_,rfl⟩⟩
      · rw [hm'] at hc
        cases hc
      · rw [hm'] at hm''
        cases hm''
        exact hsrc ▸ h.ident i
      · cases hm'
  · by_cases hsingle : ∃ out, outs = [out]
    · obtain ⟨out,rfl⟩ := hsingle
      refine (M.packets_single i _ out).imp_of_mem fun {x y} hx hy hne b hb => ?_
      obtain ⟨_,hox,hsx,_,_,hmx⟩ := Named.mem_packets hx
      obtain ⟨_,hoy,hsy,_,_,hmy⟩ := Named.mem_packets hy
      rw [List.mem_singleton.mp hox] at hmx
      rw [List.mem_singleton.mp hoy] at hmy
      exact ballotOf_ne (hsx.trans hsy.symm) (hmx.trans hmy.symm) hne hb
    · refine List.pairwise_of_forall_mem_list fun x hx y _ b hb => ?_
      exact absurd (hcast x b hx hb).1 hsingle
  · intro x hx y hy b hbx hby
    rcases (hcast y b hy hby).2.2 with ⟨hlt,rfl⟩ | ⟨sender,t,c,li,lt,hmsg,howns,rfl⟩
    · exact hlt.not_ge (h.due x (hin.1.subset hx) _ hbx).1
    · exact (h.asked hin hmsg howns).2.2 x hx hbx
  · intro y hy b hb
    obtain ⟨⟨out,hout⟩,hdst,hwhy⟩ := hcast y b hy hb
    rcases hwhy with ⟨hlt,rfl⟩ | ⟨sender,t,c,li,lt,hmsg,howns,rfl⟩
    · rw [Function.update_self]
      refine ⟨(hland.flushed (by simp [hout])).ge,hland.uncounted ?_⟩
      exact Uncounted.fresh hpolls.change (h.ident i) hdst hlt
    · rw [Function.update_of_ne hdst]
      obtain ⟨hle,hun,_⟩ := h.asked hin hmsg howns
      exact ⟨hle,hun⟩

theorem Fleet.Polling.wakes (h : s.Polling A M) {l : Fleet.Label V N} {env : Env} {input : Input V}
    {rest : List V} {fate : Fate} {flight : List (Daccord.Packet N (Message V))}
    (hw : s.Wakes l i env input rest fate flight) : s.Fetched i input flight := by
  cases hw with
  | act hb =>
    refine ⟨List.Sublist.refl _,fun sender msg hmsg => ?_⟩
    rename_i value
    cases value <;> cases hmsg
  | repropose hb => exact ⟨List.Sublist.refl _,nofun⟩
  | @deliver pos _ _ pkt hpkt hb =>
    obtain ⟨hlt,hget⟩ := List.getElem?_eq_some_iff.mp hpkt
    have hperm := List.getElem_cons_eraseIdx_perm hlt
    rw [hget] at hperm
    have honce := h.once.perm hperm.symm fun hxy b hy hx => hxy b hx hy
    refine ⟨List.eraseIdx_sublist _ _,fun sender msg hmsg => ?_⟩
    cases hmsg
    exact ⟨pkt,List.mem_of_getElem? hpkt,rfl,rfl,(List.pairwise_cons.mp honce).1⟩

theorem Fleet.Polling.step (h : s.Polling A M) {l : Fleet.Label V N}
    (hs : s.step A M l = some s') : s'.Polling A M := by
  rcases Fleet.step_cases hs with ⟨i,env,input,rest,fate,flight,hw,rfl⟩ | ⟨i,env,k,rfl,rfl⟩ |
    ⟨pos,rfl,rfl⟩
  · exact h.take (h.wakes hw)
  · exact h.reborn i env k
  · exact h.lessen pos

theorem Fleet.polling_reaches {ok : Fleet N V W → Fleet.Label V N → Prop} {env : Env}
    (h : Runs.Reaches (Fleet.step A M) ok (.init A M env) s) : s.Polling A M :=
  h.invariant (Fleet.Polling A M) (.init A M env) fun _ _ _ _ ih _ hs => ih.step hs

end
end Raft
end Daccord
