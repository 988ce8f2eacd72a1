import Daccord.RaftCalm

/-! From every state a cluster can reach, a node with the most up to date log can
be elected. -/
namespace Daccord
namespace Raft

variable {V : Type} {N : ℕ}

section
variable {M : Membership N} {j d : Fin N}

theorem mem_route_broadcast (h : d ≠ j) (msg : RaftMessage V) :
    ⟨j,d,msg⟩ ∈ M.route j ⟨.broadcast,msg⟩ := by
  simp [Membership.route,Membership.addressed,h]

theorem mem_route_peer (h : d ≠ j) (msg : RaftMessage V) :
    ⟨j,d,msg⟩ ∈ M.route j ⟨.peer (M.ids d),msg⟩ := by
  simp [Membership.route,Membership.addressed,h]

end

namespace RaftProtocol

theorem onTick_of_due {env : Env} {p : RaftProtocol V} (hr : p.role ≠ .leader)
    (hd : p.electionDeadline ≤ env.now) : p.onTick env = p.startElection env := by
  unfold onTick
  cases hrole : p.role with
  | leader => exact absurd hrole hr
  | follower => simp [hd]
  | candidate => simp [hd]

theorem handleRequestVote_grants (env : Env) {p : RaftProtocol V} (candidate : NodeId)
    (li : Option ℕ) (lt : ℕ) (hv : p.votedFor = none)
    (hup : p.candidateLogAtLeastAsUpToDate lt li = true) :
    (p.handleRequestVote env p.currentTerm candidate li lt).2 =
      [⟨.peer candidate,.requestVoteResponse p.currentTerm true⟩] := by
  simp [handleRequestVote,hv,hup]

/-- The election rule compares last terms, then lengths. -/
theorem upToDate_of_le {p q : RaftProtocol V}
    (h : toLex (p.lastLogTerm,p.log.length) ≤ toLex (q.lastLogTerm,q.log.length)) :
    p.candidateLogAtLeastAsUpToDate q.lastLogTerm q.lastLogIndex = true := by
  unfold candidateLogAtLeastAsUpToDate
  rcases Prod.Lex.le_iff.mp h with hlt | ⟨heq,hle⟩
  · have hne : q.lastLogTerm ≠ p.lastLogTerm := Nat.ne_of_gt hlt
    rw [if_pos hne]
    exact decide_eq_true hlt
  · have hsame : ¬ q.lastLogTerm ≠ p.lastLogTerm := fun hne => hne heq.symm
    have hlen : p.log.length ≤ q.log.length := hle
    rw [if_neg hsame,lastLogIndex,lastLogIndex,lastIndexOf_eq,lastIndexOf_eq]
    by_cases h1 : q.log.length = 0
    · have h2 : p.log.length = 0 := by omega
      simp [h1,h2]
    · by_cases h2 : p.log.length = 0
      · simp [h1,h2]
      · simp only [h1,h2,if_false,decide_eq_true_eq]
        omega

end RaftProtocol

section
variable {M : Membership N} {i : Fin N} {v : V} {t t' t'' : Timed N V} {c d j : Fin N}

theorem Moved.trans (h : Moved M i v t t' j) (h' : Moved M i v t' t'' j) : Moved M i v t t'' j :=
  ⟨h.run.trans h'.run,fun k hk => (h'.others k hk).trans (h.others k hk),h'.idle⟩

/-- The cluster has come about over links that are queues. -/
def Timed.Grounded (M : Membership N) (t : Timed N V) : Prop :=
  ∃ env, Runs.Reaches (Cluster.step M) Fifo (.init M env) t.cluster

theorem Timed.Grounded.calmly (h : t.Grounded M) (hrun : Calmly M i v t t') : t'.Grounded M := by
  obtain ⟨env,hreach⟩ := h
  exact ⟨env,hreach.trans hrun.cluster⟩

theorem Timed.Grounded.inOrder (h : t.Grounded M) : ∃ a, InOrder M a t.cluster := by
  obtain ⟨env,hreach⟩ := h
  obtain ⟨a,_,ha⟩ := (Raft.InOrder.init M env).reaches hreach
  exact ⟨a,ha⟩

theorem Timed.Grounded.ident (h : t.Grounded M) (j : Fin N) : (t.memory j).nodeId = M.ids j := by
  obtain ⟨a,ha⟩ := h.inOrder
  exact (ha.ok.nodes j).tracks.ident.symm

theorem Timed.Grounded.quorum (h : t.Grounded M) (j : Fin N) : (t.memory j).quorum = N / 2 + 1 := by
  obtain ⟨a,ha⟩ := h.inOrder
  have htotal : (t.memory j).totalNodes = N := (ha.ok.nodes j).tracks.total
  rw [RaftProtocol.quorum,htotal]

theorem Timed.Grounded.clean (h : t.Grounded M) (j : Fin N) : Clean (t.memory j) := by
  obtain ⟨a,ha⟩ := h.inOrder
  exact (ha.ok.nodes j).synced.clean

/-- Not every node of two or more is a leader: the latest one was elected by
another node, which has seen its term. -/
theorem Timed.Grounded.exists_nonleader (h : t.Grounded M) (hN : 1 < N) :
    ∃ j, (t.memory j).role ≠ .leader := by
  obtain ⟨a,ha⟩ := h.inOrder
  by_contra hall
  push Not at hall
  have hlead : ∀ j, a.lead j := fun j => (ha.ok.nodes j).tracks.lead.mp (hall j)
  have hb := ha.ok.sound.base
  have : Nonempty (Fin N) := ⟨⟨0,by omega⟩⟩
  obtain ⟨m,hm⟩ := Finite.exists_max a.term
  obtain ⟨Q,hQ,hballot⟩ := hb.won_quorum (hb.lead_won (hlead m))
  have hcard : 1 < Q.card := by
    unfold Majority at hQ
    rw [Fintype.card_fin] at hQ
    omega
  obtain ⟨w,hw,hne⟩ := Finset.exists_mem_ne hcard m
  have hterm : a.term w = a.term m := le_antisymm (hm w) (hb.ballot_le (hballot w hw))
  have hwon := hb.lead_won (hlead w)
  rw [hterm] at hwon
  exact hne (hb.won_unique hwon (hb.lead_won (hlead m)))

/-- Node `c` has asked everybody for a vote in its term, which is after `B`. -/
structure Campaigns (M : Membership N) (t : Timed N V) (c : Fin N) (B : ℕ) : Prop where
  role : (t.memory c).role = .candidate
  later : B < (t.memory c).currentTerm
  votes : (t.memory c).votesReceived = {M.ids c}
  asked : ∀ d, d ≠ c → ⟨c,d,.requestVote (t.memory c).currentTerm (M.ids c)
    (t.memory c).lastLogIndex (t.memory c).lastLogTerm⟩ ∈ t.cluster.flight

/-- A node that is not leader runs for the next term when its timeout is over. -/
theorem Timed.stand (t : Timed N V) (hg : t.Grounded M) (hN : 1 < N) (hidle : t.Idle)
    (hrole : (t.memory c).role ≠ .leader) :
    ∃ t', Moved M i v t t' c ∧ Campaigns M t' c (t.memory c).currentTerm ∧
      (t'.memory c).currentTerm = (t.memory c).currentTerm + 1 ∧
      (t'.memory c).log = (t.memory c).log := by
  obtain ⟨t',hmoved,hmem,hflight⟩ := t.tick (M := M) (i := i) (v := v) (hidle c)
    (Nat.le_max_left t.clock (t.memory c).electionDeadline)
  rw [RaftProtocol.onTick_of_due hrole (Nat.le_max_right _ _)] at hmem hflight
  rcases RaftProtocol.startElection_cases ⟨max t.clock (t.memory c).electionDeadline,0⟩
    (t.memory c) with ⟨hq,_⟩ | ⟨_,lost,pend,heq⟩
  · rw [hg.quorum c] at hq
    omega
  rw [heq] at hmem hflight
  have hterm : (t'.memory c).currentTerm = (t.memory c).currentTerm + 1 := by rw [hmem]; rfl
  have hlog : (t'.memory c).log = (t.memory c).log := by rw [hmem]; rfl
  refine ⟨t',hmoved,⟨?_,?_,?_,fun d hd => ?_⟩,hterm,hlog⟩
  · rw [hmem]
    rfl
  · rw [hterm]
    exact Nat.lt_succ_self _
  · rw [hmem,← hg.ident c]
    rfl
  · have hindex : (t'.memory c).lastLogIndex = (t.memory c).lastLogIndex :=
      congrArg RaftProtocol.lastIndexOf hlog
    have hlast : (t'.memory c).lastLogTerm = (t.memory c).lastLogTerm := by
      rw [RaftProtocol.lastLogTerm,hlog]
      rfl
    rw [hflight,hindex,hlast,hterm,← hg.ident c]
    refine List.mem_append_right _ (List.mem_flatMap.mpr ⟨_,List.mem_singleton.mpr rfl,?_⟩)
    exact mem_route_broadcast hd _

/-- If it hears nothing, it runs for later and later terms. -/
theorem Timed.campaign (t : Timed N V) (hg : t.Grounded M) (hN : 1 < N) (hidle : t.Idle)
    (hrole : (t.memory c).role ≠ .leader) (B : ℕ) :
    ∃ t', Moved M i v t t' c ∧ Campaigns M t' c B ∧ (t'.memory c).log = (t.memory c).log := by
  -- the terms that are still to be run for
  generalize hn : B + 1 - (t.memory c).currentTerm = n
  induction n generalizing t with
  | zero =>
    obtain ⟨t',hmoved,hc,hterm,hlog⟩ := t.stand (M := M) (i := i) (v := v) hg hN hidle hrole
    exact ⟨t',hmoved,{ hc with later := by omega },hlog⟩
  | succ n ih =>
    obtain ⟨t₁,hmoved,hc,hterm,hlog⟩ := t.stand (M := M) (i := i) (v := v) hg hN hidle hrole
    obtain ⟨t₂,hmoved₂,hc₂,hlog₂⟩ := ih t₁ (hg.calmly hmoved.run) (hmoved.idle_all hidle)
      (by rw [hc.role]; decide) (by omega)
    exact ⟨t₂,hmoved.trans hmoved₂,hc₂,hlog₂.trans hlog⟩

theorem Timed.hear (t : Timed N V) (hidle : t.Idle) (hcd : d ≠ c) {T lt : ℕ} {li : Option ℕ}
    (hpkt : ⟨c,d,.requestVote T (M.ids c) li lt⟩ ∈ t.cluster.flight)
    (hT : (t.memory d).currentTerm < T) :
    ∃ t', Moved M i v t t' d ∧ (t'.memory d).role = .follower ∧ (t'.memory d).currentTerm = T ∧
      (t'.memory d).log = (t.memory d).log ∧
      ((t.memory d).candidateLogAtLeastAsUpToDate lt li = true →
        ⟨d,c,.requestVoteResponse T true⟩ ∈ t'.cluster.flight) ∧
      ∀ x ∈ t.cluster.flight, ¬ (x.src = c ∧ x.dst = d) → x ∈ t'.cluster.flight := by
  obtain ⟨t',hmoved,hcarry,_,hsent,hkept⟩ := t.receive (M := M) (i := i) (v := v) hpkt (hidle d)
  rcases (t.memory d).bumpTerm_cases ⟨t.clock,0⟩ (.requestVote T (M.ids c) li lt) with
    ⟨_,hle⟩ | ⟨T',hT',_,hbump⟩
  · have := hle T rfl
    omega
  obtain rfl : T = T' := Option.some.inj hT'
  set q := (t.memory d).bumpTerm ⟨t.clock,0⟩ (.requestVote T (M.ids c) li lt) with hq
  -- whether the vote is granted or not, the node follows the new term
  have hfacts : ∀ r : Reply V, r = q.handleRequestVote ⟨t.clock,0⟩ T (M.ids c) li lt →
      r.1.role = .follower ∧ r.1.currentTerm = T ∧ r.1.log = (t.memory d).log := by
    rintro r rfl
    rcases q.handleRequestVote_cases ⟨t.clock,0⟩ T (M.ids c) li lt with heq | ⟨_,_,_,heq⟩
    · rw [heq,hbump]
      exact ⟨rfl,rfl,rfl⟩
    · rw [heq,hbump]
      exact ⟨rfl,rfl,rfl⟩
  obtain ⟨hrole,hterm,hlog⟩ := hfacts _ rfl
  have hhandle : (t.memory d).handleMessage ⟨t.clock,0⟩ (M.ids c) (.requestVote T (M.ids c) li lt) =
      q.handleRequestVote ⟨t.clock,0⟩ T (M.ids c) li lt := rfl
  simp only [hhandle] at hcarry hsent
  refine ⟨t',hmoved,hcarry.role.trans hrole,hcarry.term.trans hterm,
    (hcarry.quiet (by rw [hrole]; decide)).1.trans hlog,fun hup => ?_,hkept⟩
  have hq1 : q.currentTerm = T := by rw [hbump]
  have hgrant := q.handleRequestVote_grants ⟨t.clock,0⟩ (M.ids c) li lt
    (by rw [hbump]) (by rw [hbump]; exact hup)
  rw [hq1] at hgrant
  refine hsent _ ?_ _ (mem_route_peer hcd.symm _)
  rw [hgrant]
  exact List.mem_singleton.mpr rfl

structure Polled (t : Timed N V) (c : Fin N) (T : ℕ) (voters : Finset NodeId) : Prop where
  term : (t.memory c).currentTerm = T
  lost : (t.memory c).role = .leader → (t.memory c).lostProposals = []
  stand : (t.memory c).role = .leader ∨ ((t.memory c).role = .candidate ∧
    (t.memory c).votesReceived = voters ∧ voters.card < N / 2 + 1)

theorem RaftProtocol.becomeLeader_facts (env : Env) {p : RaftProtocol V}
    (hp : p.pendingPersistLogFrom = none) : (p.becomeLeader env).1.role = .leader ∧
      (p.becomeLeader env).1.currentTerm = p.currentTerm := by
  by_cases h : p.pendingProposals = []
  · rw [p.becomeLeader_of_empty env h]
    exact ⟨rfl,rfl⟩
  · rw [p.becomeLeader_of_batch env h hp]
    obtain ⟨_,_,_,_,heq,_⟩ := (p.takeOffice.appendOwn p.batch).tryAdvanceCommit_advanced.frame
    rw [RaftProtocol.broadcastWithEntries,heq]
    exact ⟨rfl,rfl⟩

theorem Timed.count (t : Timed N V) (hg : t.Grounded M) (hidle : t.Idle) {T : ℕ}
    {voters : Finset NodeId}
    (hpkt : ⟨d,c,.requestVoteResponse T true⟩ ∈ t.cluster.flight) (hpoll : Polled t c T voters) :
    ∃ t', Moved M i v t t' c ∧ Polled t' c T (insert (M.ids d) voters) ∧
      ∀ x ∈ t.cluster.flight, ¬ (x.src = d ∧ x.dst = c) → x ∈ t'.cluster.flight := by
  obtain ⟨t',hmoved,hcarry,_,_,hkept⟩ := t.receive (M := M) (i := i) (v := v) hpkt (hidle c)
  refine ⟨t',hmoved,?_,hkept⟩
  have hbump : (t.memory c).bumpTerm ⟨t.clock,0⟩ (.requestVoteResponse T true) = t.memory c := by
    rcases (t.memory c).bumpTerm_cases ⟨t.clock,0⟩ (.requestVoteResponse T true) with
      ⟨heq,_⟩ | ⟨T',hT',hlt,_⟩
    · exact heq
    · cases hT'
      rw [hpoll.term] at hlt
      omega
  have hhandle : (t.memory c).handleMessage ⟨t.clock,0⟩ (M.ids d) (.requestVoteResponse T true) =
      (t.memory c).handleRequestVoteResponse ⟨t.clock,0⟩ (M.ids d) T true := by
    rw [RaftProtocol.handleMessage,hbump]
    rfl
  rw [hhandle] at hcarry
  have hlost : (t'.memory c).lostProposals = [] := hcarry.lost
  rcases hpoll.stand with hlead | ⟨hcand,hvotes,_⟩
  · have hsame : (t.memory c).handleRequestVoteResponse ⟨t.clock,0⟩ (M.ids d) T true =
        (t.memory c,[]) := if_pos (Or.inl (by rw [hlead]; decide))
    rw [hsame] at hcarry
    exact ⟨hcarry.term.trans hpoll.term,fun _ => hlost,Or.inl (hcarry.role.trans hlead)⟩
  · have hopen : ¬ ((t.memory c).role ≠ .candidate ∨ T ≠ (t.memory c).currentTerm) := by
      simp [hcand,hpoll.term]
    rw [RaftProtocol.handleRequestVoteResponse,if_neg hopen] at hcarry
    simp only [if_true] at hcarry
    by_cases hq : (t.memory c).quorum ≤ (insert (M.ids d) (t.memory c).votesReceived).card
    · -- the vote that makes a quorum
      have hq' : ({ t.memory c with votesReceived := insert (M.ids d) (t.memory c).votesReceived } :
          RaftProtocol V).quorum ≤ (insert (M.ids d) (t.memory c).votesReceived).card := hq
      rw [if_pos hq'] at hcarry
      obtain ⟨hrole,hterm⟩ := RaftProtocol.becomeLeader_facts ⟨t.clock,0⟩
        (p := { t.memory c with votesReceived := insert (M.ids d) (t.memory c).votesReceived })
        (hg.clean c).append
      exact ⟨(hcarry.term.trans hterm).trans hpoll.term,fun _ => hlost,
        Or.inl (hcarry.role.trans hrole)⟩
    · have hq' : ¬ ({ t.memory c with votesReceived := insert (M.ids d) (t.memory c).votesReceived } :
          RaftProtocol V).quorum ≤ (insert (M.ids d) (t.memory c).votesReceived).card := hq
      rw [if_neg hq'] at hcarry
      have hrole : (t'.memory c).role = .candidate := hcarry.role.trans hcand
      refine ⟨hcarry.term.trans hpoll.term,fun _ => hlost,Or.inr ⟨hrole,?_,?_⟩⟩
      · rw [← hvotes]
        exact (hcarry.quiet (by simp [hcand])).2.1
      · rw [hg.quorum c,hvotes] at hq
        omega

/-- The nodes `ds` are asked one after another, and all vote for `c`. -/
theorem Timed.canvass (ds : List (Fin N)) (hds : ds.Nodup) (hc : c ∉ ds) (T : ℕ) (li : Option ℕ)
    (lt : ℕ) (voters : Finset NodeId) (t : Timed N V) (hg : t.Grounded M) (hidle : t.Idle)
    (hpoll : Polled t c T voters)
    (hask : ∀ d ∈ ds, ⟨c,d,.requestVote T (M.ids c) li lt⟩ ∈ t.cluster.flight ∧
      (t.memory d).currentTerm < T ∧
      (t.memory d).candidateLogAtLeastAsUpToDate lt li = true) :
    ∃ t', Calmly M i v t t' ∧ t'.Idle ∧ Polled t' c T (voters ∪ (ds.map M.ids).toFinset) ∧
      (∀ d ∈ ds, (t'.memory d).currentTerm = T ∧ (t'.memory d).role = .follower) ∧
      ∀ d, d ∉ ds → d ≠ c → t'.memory d = t.memory d := by
  induction ds generalizing t voters with
  | nil => exact ⟨t,.start,hidle,by simpa using hpoll,List.forall_mem_nil _,fun _ _ _ => rfl⟩
  | cons d ds ih =>
    obtain ⟨hd,hds⟩ := List.nodup_cons.mp hds
    have hcd : d ≠ c := fun h => hc (h ▸ List.mem_cons_self)
    obtain ⟨hpkt,hlt,hup⟩ := hask d List.mem_cons_self
    obtain ⟨t1,hm1,hrole1,hterm1,_,hvote,hkept1⟩ := t.hear (M := M) (i := i) (v := v) hidle hcd hpkt hlt
    have hpoll1 : Polled t1 c T voters := by
      have hsame := hm1.memory hcd.symm
      exact ⟨hsame ▸ hpoll.term,hsame ▸ hpoll.lost,hsame ▸ hpoll.stand⟩
    have hg1 := hg.calmly hm1.run
    obtain ⟨t2,hm2,hpoll2,hkept2⟩ := t1.count (M := M) (i := i) (v := v) hg1 (hm1.idle_all hidle)
      (hvote hup) hpoll1
    have hother : ∀ e, e ≠ d → e ≠ c → t2.memory e = t.memory e := fun e hed hec =>
      (hm2.memory hec).trans (hm1.memory hed)
    obtain ⟨t3,hrun,hidle3,hpoll3,hall,hrest⟩ := ih hds (fun h => hc (List.mem_cons_of_mem d h)) _ t2
      (hg1.calmly hm2.run) (hm2.idle_all (hm1.idle_all hidle)) hpoll2 (fun e he => by
        have hed : e ≠ d := fun h => hd (h ▸ he)
        have hec : e ≠ c := fun h => hc (h ▸ List.mem_cons_of_mem d he)
        obtain ⟨hpkt,hrest⟩ := hask e (List.mem_cons_of_mem d he)
        rw [hother e hed hec]
        exact ⟨hkept2 _ (hkept1 _ hpkt fun h => hed h.2) fun h => hec h.2,hrest⟩)
    refine ⟨t3,(hm1.run.trans hm2.run).trans hrun,hidle3,?_,fun e he => ?_,fun e he hec => ?_⟩
    · have hset : voters ∪ ((d :: ds).map M.ids).toFinset =
          insert (M.ids d) voters ∪ (ds.map M.ids).toFinset := by
        rw [List.map_cons,List.toFinset_cons,Finset.union_insert,Finset.insert_union]
      rw [hset]
      exact hpoll3
    · rcases List.mem_cons.mp he with rfl | he
      · rw [hrest e hd hcd,hm2.memory hcd]
        exact ⟨hterm1,hrole1⟩
      · exact hall e he
    · have hed : e ≠ d := fun h => he (h ▸ List.mem_cons_self)
      rw [hrest e (fun h => he (List.mem_cons_of_mem d h)) hec]
      exact hother e hed hec

structure Leads (t : Timed N V) (c : Fin N) : Prop where
  idle : t.Idle
  role : (t.memory c).role = .leader
  lost : (t.memory c).lostProposals = []
  others : ∀ d, d ≠ c → (t.memory d).currentTerm = (t.memory c).currentTerm ∧
    (t.memory d).role = .follower

theorem Campaigns.elected (h : Campaigns M t c 0) (hg : t.Grounded M) (hidle : t.Idle)
    (hN : 1 < N) (hlate : ∀ d, d ≠ c → (t.memory d).currentTerm < (t.memory c).currentTerm)
    (hup : ∀ d, (t.memory d).candidateLogAtLeastAsUpToDate (t.memory c).lastLogTerm
      (t.memory c).lastLogIndex = true) : ∃ t', Calmly M i v t t' ∧ Leads t' c := by
  set ds := (List.finRange N).filter (· ≠ c) with hds
  have hmem : ∀ d, d ∈ ds ↔ d ≠ c := by
    intro d
    simp [hds]
  obtain ⟨t',hrun,hidle',hpoll,hall,_⟩ := Timed.canvass (i := i) (v := v) (M := M) (c := c)
    ds ((List.nodup_finRange N).filter _) (fun hc => (hmem c).mp hc rfl) (t.memory c).currentTerm
    (t.memory c).lastLogIndex (t.memory c).lastLogTerm {M.ids c} t hg hidle
    ⟨rfl,by simp [h.role],Or.inr ⟨h.role,h.votes,by
      rw [Finset.card_singleton]
      omega⟩⟩
    (fun d hd => ⟨h.asked d ((hmem d).mp hd),hlate d ((hmem d).mp hd),hup d⟩)
  have hlead : (t'.memory c).role = .leader := by
    refine hpoll.stand.resolve_right ?_
    rintro ⟨_,_,hcard⟩
    -- everybody has voted
    have hevery : {M.ids c} ∪ (ds.map M.ids).toFinset = Finset.univ.image M.ids := by
      ext id
      simp only [Finset.mem_union,Finset.mem_singleton,List.mem_toFinset,List.mem_map,
        Finset.mem_image,Finset.mem_univ,true_and,hmem]
      constructor
      · rintro (rfl | ⟨d,_,rfl⟩)
        · exact ⟨c,rfl⟩
        · exact ⟨d,rfl⟩
      · rintro ⟨d,rfl⟩
        by_cases hd : d = c
        · exact Or.inl (congrArg M.ids hd)
        · exact Or.inr ⟨d,hd,rfl⟩
    rw [hevery,Finset.card_image_of_injective _ M.distinct,Finset.card_univ,Fintype.card_fin] at hcard
    omega
  refine ⟨t',hrun,hidle',hlead,hpoll.lost hlead,fun d hd => ?_⟩
  rw [hpoll.term]
  exact hall d ((hmem d).mpr hd)

theorem Timed.exists_latest (t : Timed N V) : ∃ B, ∀ d, (t.memory d).currentTerm ≤ B := by
  refine ⟨Finset.univ.sup fun d => (t.memory d).currentTerm,fun d => ?_⟩
  exact Finset.le_sup (f := fun d => (t.memory d).currentTerm) (Finset.mem_univ d)

theorem Timed.candidate (t : Timed N V) (hg : t.Grounded M) (hN : 1 < N) (hidle : t.Idle)
    (hrole : (t.memory c).role ≠ .leader) :
    ∃ t', Calmly M i v t t' ∧ t'.Idle ∧ Campaigns M t' c 0 ∧
      (∀ d, d ≠ c → (t'.memory d).currentTerm < (t'.memory c).currentTerm) ∧
      ∀ d, (t'.memory d).log = (t.memory d).log := by
  obtain ⟨B,hB⟩ := t.exists_latest
  obtain ⟨t',hmoved,hc,hlog⟩ := t.campaign (M := M) (i := i) (v := v) hg hN hidle hrole B
  refine ⟨t',hmoved.run,hmoved.idle_all hidle,{ hc with later := Nat.zero_lt_of_lt hc.later },
    fun d hd => ?_,fun d => ?_⟩
  · rw [hmoved.memory hd]
    exact (hB d).trans_lt hc.later
  · by_cases hd : d = c
    · rw [hd]
      exact hlog
    · rw [hmoved.memory hd]

/-- A leader hears of a later term and steps down; no log changes. -/
theorem Timed.depose (t : Timed N V) (hg : t.Grounded M) (hN : 1 < N) (hidle : t.Idle)
    (hrole : (t.memory c).role = .leader) :
    ∃ t', Calmly M i v t t' ∧ t'.Idle ∧ (t'.memory c).role ≠ .leader ∧
      ∀ d, (t'.memory d).log = (t.memory d).log := by
  obtain ⟨h,hh⟩ := hg.exists_nonleader hN
  have hhc : c ≠ h := fun heq => hh (heq ▸ hrole)
  obtain ⟨t1,hrun1,hidle1,hcamp,hlate,hlogs1⟩ := t.candidate (M := M) (i := i) (v := v) hg hN hidle hh
  obtain ⟨t2,hm2,hrole2,_,hlog2,_⟩ := t1.hear (M := M) (i := i) (v := v) hidle1 hhc
    (hcamp.asked c hhc) (hlate c hhc)
  refine ⟨t2,hrun1.trans hm2.run,hm2.idle_all hidle1,by rw [hrole2]; decide,fun d => ?_⟩
  by_cases hd : d = c
  · rw [hd,hlog2,hlogs1]
  · rw [hm2.memory hd,hlogs1]

/-- From every state some node can be elected. -/
theorem Timed.elect (t : Timed N V) (hg : t.Grounded M) (hN : 1 < N) (hidle : t.Idle) :
    ∃ t' c, Calmly M i v t t' ∧ Leads t' c := by
  have : Nonempty (Fin N) := ⟨⟨0,by omega⟩⟩
  obtain ⟨c,hc⟩ := Finite.exists_max fun d =>
    toLex ((t.memory d).lastLogTerm,(t.memory d).log.length)
  have hstep : ∃ t1, Calmly M i v t t1 ∧ t1.Idle ∧ (t1.memory c).role ≠ .leader ∧
      ∀ d, (t1.memory d).log = (t.memory d).log := by
    by_cases hr : (t.memory c).role = .leader
    · exact t.depose hg hN hidle hr
    · exact ⟨t,.start,hidle,hr,fun _ => rfl⟩
  obtain ⟨t1,hrun1,hidle1,hrole1,hlogs1⟩ := hstep
  have hg1 := hg.calmly hrun1
  obtain ⟨t2,hrun2,hidle2,hcamp,hlate,hlogs2⟩ := t1.candidate (M := M) (i := i) (v := v) hg1 hN hidle1
    hrole1
  have hlogs : ∀ d, (t2.memory d).log = (t.memory d).log := fun d => (hlogs2 d).trans (hlogs1 d)
  obtain ⟨t3,hrun3,hleads⟩ := hcamp.elected (i := i) (v := v) (hg1.calmly hrun2) hidle2 hN hlate
    (fun d => RaftProtocol.upToDate_of_le (by
      simp only [RaftProtocol.lastLogTerm,hlogs] at hc ⊢
      exact hc d))
  exact ⟨t3,c,(hrun1.trans hrun2).trans hrun3,hleads⟩

end
end Raft
end Daccord
