import Daccord.RaftFifo

/-! Runs of a Raft cluster in which nothing fails but packets: every turn comes to
its end, every link is a queue, and the clock does not run backwards. This module
has the turns such runs are put together from. -/
namespace Daccord
namespace Raft

variable {V : Type} {N : ℕ}

structure Timed (N : ℕ) (V : Type) where
  cluster : Cluster N V
  clock : ℕ

def Label.now : Label V N → Option ℕ
  | .act _ env _ _ => some env.now
  | .repropose _ env _ => some env.now
  | .deliver _ env _ => some env.now
  | .restart _ env => some env.now
  | .lose _ => none
  | .duplicate _ => none

def Timed.step (M : Membership N) (t : Timed N V) (l : Label V N) : Option (Timed N V) :=
  if t.clock ≤ l.now.getD t.clock then
    (t.cluster.step M l).map fun s => ⟨s,l.now.getD t.clock⟩
  else none

def Timed.memory (t : Timed N V) (j : Fin N) : RaftProtocol V := (t.cluster.nodes j).protocol

/-- No crash, no restart, no packet twice or out of order; the only value submitted
is `v`, at node `i`. -/
def Calm (i : Fin N) (v : V) (t : Timed N V) : Label V N → Prop
  | .act j _ input fate => fate = .completes ∧ ∀ w ∈ input, j = i ∧ w = v
  | .repropose _ _ fate => fate = .completes
  | .deliver pos env fate => fate = .completes ∧ Fifo t.cluster (.deliver pos env fate)
  | .restart .. => False
  | .lose _ => True
  | .duplicate _ => False

theorem Calm.fifo {i : Fin N} {v : V} {t : Timed N V} {l : Label V N} (h : Calm i v t l) :
    Fifo t.cluster l := by
  cases l with
  | deliver pos env fate => exact h.2
  | duplicate pos => exact h
  | _ => trivial

def Calmly (M : Membership N) (i : Fin N) (v : V) (t t' : Timed N V) : Prop :=
  Runs.Reaches (Timed.step M) (Calm i v) t t'

def RaftProtocol.rested (p : RaftProtocol V) (lost : List V) : RaftProtocol V :=
  { p.drainPersistIntent.1 with
    pendingDecisions := []
    lostProposals := lost }

/-- What re-proposals leave as it was. -/
structure Carry (p q : RaftProtocol V) : Prop where
  role : q.role = p.role
  term : q.currentTerm = p.currentTerm
  leader : q.leader = p.leader
  ident : q.nodeId = p.nodeId
  lost : q.lostProposals = p.lostProposals
  decisions : p.pendingDecisions = [] → q.pendingDecisions = []
  quiet : p.role ≠ .leader → q.log = p.log ∧ q.votesReceived = p.votesReceived ∧
    q.commitIndex = p.commitIndex

theorem Carry.refl (p : RaftProtocol V) : Carry p p :=
  ⟨rfl,rfl,rfl,rfl,rfl,id,fun _ => ⟨rfl,rfl,rfl⟩⟩

theorem Carry.trans {p q r : RaftProtocol V} (h : Carry p q) (h' : Carry q r) : Carry p r := by
  refine ⟨h'.role.trans h.role,h'.term.trans h.term,h'.leader.trans h.leader,
    h'.ident.trans h.ident,h'.lost.trans h.lost,fun hp => h'.decisions (h.decisions hp),fun hr => ?_⟩
  obtain ⟨h1,h2,h3⟩ := h.quiet hr
  obtain ⟨h1',h2',h3'⟩ := h'.quiet (h.role ▸ hr)
  exact ⟨h1'.trans h1,h2'.trans h2,h3'.trans h3⟩

theorem Carry.propose (env : Env) (p : RaftProtocol V) (w : V) :
    Carry p (turn .exact env p (.propose w)).final := by
  by_cases hr : p.role = .leader
  · have hframe : ∃ m l c ds la b pe hb, (p.propose env w).1 = { p with
        matchIndex := m, log := l, commitIndex := c, pendingDecisions := ds, lastApplied := la,
        pendingPersistCommitIndex := b, pendingPersistLogFrom := pe, lastHeartbeatSent := hb } := by
      unfold RaftProtocol.propose
      rw [if_pos hr]
      simp only [RaftProtocol.broadcastWithEntries]
      obtain ⟨_,_,_,_,heq,_⟩ := (RaftProtocol.tryAdvanceCommit_advanced
        { ({ p with log := p.log ++ [⟨p.currentTerm,w⟩] } : RaftProtocol V).markPersistFrom
            p.log.length with
          matchIndex := (({ p with log := p.log ++ [⟨p.currentTerm,w⟩] } :
            RaftProtocol V).markPersistFrom p.log.length).matchIndex.insert
              (({ p with log := p.log ++ [⟨p.currentTerm,w⟩] } :
                RaftProtocol V).markPersistFrom p.log.length).nodeId (some p.log.length) }).frame
      rw [heq]
      unfold RaftProtocol.markPersistFrom
      split
      · exact ⟨_,_,_,_,_,_,_,_,rfl⟩
      · exact ⟨_,_,_,_,_,_,_,_,rfl⟩
    obtain ⟨_,_,_,_,_,_,_,_,heq⟩ := hframe
    have hfinal : (turn .exact env p (.propose w)).final = 
        (p.propose env w).1.rested (p.propose env w).1.lostProposals := rfl
    rw [hfinal,heq]
    exact ⟨rfl,rfl,rfl,rfl,rfl,fun _ => rfl,fun h => absurd hr h⟩
  · obtain ⟨pend,outs,heq,_⟩ := p.propose_cases env w hr
    have hfinal : (turn .exact env p (.propose w)).final = 
        (p.propose env w).1.rested (p.propose env w).1.lostProposals := rfl
    rw [hfinal,heq]
    exact ⟨rfl,rfl,rfl,rfl,rfl,fun _ => rfl,fun _ => ⟨rfl,rfl,rfl⟩⟩

/-- `q` is the memory when the turn on a message, whose handler has left `p`, and the
re-proposals after it have come to their end. -/
structure Settles (p q : RaftProtocol V) : Prop where
  role : q.role = p.role
  term : q.currentTerm = p.currentTerm
  leader : q.leader = p.leader
  lost : q.lostProposals = []
  decisions : q.pendingDecisions = []
  quiet : p.role ≠ .leader → q.log = p.log ∧ q.votesReceived = p.votesReceived ∧
    q.commitIndex = p.commitIndex

theorem Carry.settles {p q : RaftProtocol V} (h : Carry (p.rested []) q) : Settles p q :=
  ⟨h.role,h.term,h.leader,h.lost,h.decisions rfl,h.quiet⟩

section
variable {M : Membership N} {s : Cluster N V} {j k : Fin N} {env : Env} {input : Input V}
  {rest : List V}

theorem Cluster.take_protocol : ((s.take M j env input rest .completes).nodes j).protocol =
    (turn .exact env (s.nodes j).protocol input).final := by
  simp [Cluster.take,RaftNode.after]

theorem Cluster.take_backlog : ((s.take M j env input rest .completes).nodes j).backlog =
    rest ++ (turn .exact env (s.nodes j).protocol input).lost := by
  simp [Cluster.take,RaftNode.after]

theorem Cluster.take_other (h : k ≠ j) :
    (s.take M j env input rest .completes).nodes k = s.nodes k := by
  simp [Cluster.take,h]

theorem Cluster.take_flight : (s.take M j env input rest .completes).flight =
    s.flight ++ ((s.nodes j).protocol.handle env input).2.flatMap (M.route j) := by
  have hall := (turn .exact env (s.nodes j).protocol input).sent_cut .exact
    ((turn .exact env (s.nodes j).protocol input).effects .exact).length
  rw [List.take_length,List.take_of_length_le (by simp [Turn.effects])] at hall
  simp only [Cluster.take,Fate.cut,hall]
  rfl

theorem Cluster.Wakes.step {l : Label V N} {fate : Fate} {flight : List (Packet N V)}
    (h : s.Wakes M l j env input rest fate flight) :
    s.step M l = some ({ s with flight := flight }.take M j env input rest fate) := by
  cases h with
  | act h => simp [Cluster.step,RaftNode.accepts,h]
  | repropose h => simp [Cluster.step,RaftNode.accepts,h]
  | deliver hpkt h => simp [Cluster.step,RaftNode.accepts,hpkt,h]

end

section
variable {M : Membership N} {i : Fin N} {v : V} {t t' : Timed N V} {j : Fin N}

theorem Calmly.cluster (h : Calmly M i v t t') :
    Runs.Reaches (Cluster.step M) Fifo t.cluster t'.cluster := by
  refine h.map Timed.cluster fun t l t' hl hs => ?_
  rw [Timed.step] at hs
  split at hs
  · obtain ⟨s,hstep,rfl⟩ := Option.map_eq_some_iff.mp hs
    exact .next .start hl.fifo hstep
  · cases hs

theorem Calmly.wakes {l : Label V N} {env : Env} {input : Input V} {rest : List V}
    {flight : List (Packet N V)} (hw : t.cluster.Wakes M l j env input rest .completes flight)
    (hl : Calm i v t l) (hclock : t.clock ≤ env.now) :
    Calmly M i v t ⟨{ t.cluster with flight := flight }.take M j env input rest .completes,env.now⟩ := by
  have hnow : l.now = some env.now := by
    cases hw <;> rfl
  refine .next .start hl ?_
  rw [Timed.step,hnow,Option.getD_some,if_pos hclock,hw.step]
  rfl

theorem Calmly.lose (t : Timed N V) {flight : List (Packet N V)} (h : flight.Sublist t.cluster.flight) :
    Calmly M i v t ⟨{ t.cluster with flight := flight },t.clock⟩ := by
  have hall : ∀ kept rest rest' : List (Packet N V), rest'.Sublist rest →
      Calmly M i v ⟨{ t.cluster with flight := kept ++ rest },t.clock⟩
        ⟨{ t.cluster with flight := kept ++ rest' },t.clock⟩ := by
    intro kept rest rest' hsub
    induction hsub generalizing kept with
    | slnil => exact .start
    | @cons rest' rest x _ ih =>
      refine Runs.Reaches.trans (.next .start (l := .lose kept.length) trivial ?_) (ih kept)
      simp [Timed.step,Label.now,Cluster.step,List.eraseIdx_append_of_length_le]
    | @cons_cons rest' rest x _ ih => simpa using ih (kept ++ [x])
  simpa using hall [] t.cluster.flight flight h

/-- From `t` to `t'` only node `j` takes turns, and it has no backlog at the end. -/
structure Moved (M : Membership N) (i : Fin N) (v : V) (t t' : Timed N V) (j : Fin N) : Prop where
  run : Calmly M i v t t'
  others : ∀ k, k ≠ j → t'.cluster.nodes k = t.cluster.nodes k
  idle : (t'.cluster.nodes j).backlog = []

theorem Moved.memory (h : Moved M i v t t' j) {k : Fin N} (hk : k ≠ j) : t'.memory k = t.memory k :=
  congrArg RaftNode.protocol (h.others k hk)

def Timed.Idle (t : Timed N V) : Prop := ∀ j, (t.cluster.nodes j).backlog = []

theorem Moved.idle_all (h : Moved M i v t t' j) (ht : t.Idle) : t'.Idle := by
  intro k
  by_cases hk : k = j
  · rw [hk]
    exact h.idle
  · rw [h.others k hk]
    exact ht k

theorem Timed.tick (t : Timed N V) (hj : (t.cluster.nodes j).backlog = []) {now : ℕ}
    (hnow : t.clock ≤ now) :
    ∃ t', Moved M i v t t' j ∧ 
        t'.memory j = ((t.memory j).onTick ⟨now,0⟩).1.rested
          ((t.memory j).onTick ⟨now,0⟩).1.lostProposals ∧
      t'.cluster.flight = t.cluster.flight ++ ((t.memory j).onTick ⟨now,0⟩).2.flatMap (M.route j) := by
  have hw : t.cluster.Wakes M (.act j ⟨now,0⟩ none .completes) j ⟨now,0⟩ .tick [] .completes
      t.cluster.flight := .act hj
  refine ⟨_,⟨.wakes hw ⟨rfl,?_⟩ hnow,fun k hk => Cluster.take_other hk,?_⟩,?_,Cluster.take_flight⟩
  · intro w hw
    cases hw
  · rw [Cluster.take_backlog]
    rfl
  · rw [Timed.memory,Cluster.take_protocol]
    rfl

theorem Timed.submit (t : Timed N V) (hi : (t.cluster.nodes i).backlog = []) :
    ∃ t', Moved M i v t t' i ∧
      t'.memory i = ((t.memory i).propose ⟨t.clock,0⟩ v).1.rested
        ((t.memory i).propose ⟨t.clock,0⟩ v).1.lostProposals ∧
      t'.cluster.flight = t.cluster.flight ++
        ((t.memory i).propose ⟨t.clock,0⟩ v).2.flatMap (M.route i) := by
  have hw : t.cluster.Wakes M (.act i ⟨t.clock,0⟩ (some v) .completes) i ⟨t.clock,0⟩ (.propose v) []
      .completes t.cluster.flight := .act hi
  refine ⟨_,⟨.wakes hw ⟨rfl,?_⟩ (le_refl _),fun k hk => Cluster.take_other hk,?_⟩,?_,
    Cluster.take_flight⟩
  · intro w hw
    exact ⟨rfl,(Option.some.inj hw).symm⟩
  · rw [Cluster.take_backlog]
    rfl
  · rw [Timed.memory,Cluster.take_protocol]
    rfl

theorem Timed.drain (t : Timed N V) (j : Fin N) :
    ∃ t', Moved M i v t t' j ∧ Carry (t.memory j) (t'.memory j) ∧
      ((t.cluster.nodes j).backlog = [] → t' = t) ∧ ∀ x ∈ t.cluster.flight, x ∈ t'.cluster.flight := by
  generalize hb : (t.cluster.nodes j).backlog = backlog
  induction backlog generalizing t with
  | nil => exact ⟨t,⟨.start,fun _ _ => rfl,hb⟩,.refl _,fun _ => rfl,fun _ hx => hx⟩
  | cons w rest ih =>
    have hw : t.cluster.Wakes M (.repropose j ⟨t.clock,0⟩ .completes) j ⟨t.clock,0⟩ (.propose w) rest
        .completes t.cluster.flight := .repropose hb
    obtain ⟨t',hmoved,hcarry,_,hflight⟩ := ih
      ⟨t.cluster.take M j ⟨t.clock,0⟩ (.propose w) rest .completes,t.clock⟩ (by
        rw [Cluster.take_backlog]
        exact List.append_nil rest)
    refine ⟨t',⟨(Calmly.wakes hw rfl (le_refl _)).trans hmoved.run,fun k hk => ?_,hmoved.idle⟩,?_,
      nofun,fun x hx => hflight x ?_⟩
    · rw [hmoved.others k hk]
      exact Cluster.take_other hk
    · refine Carry.trans ?_ hcarry
      rw [Timed.memory,Timed.memory,Cluster.take_protocol]
      exact .propose _ _ w
    · rw [Cluster.take_flight]
      exact List.mem_append_left _ hx

/-- All backlogs can be worked off. -/
theorem Timed.settle (t : Timed N V) : ∃ t', Calmly M i v t t' ∧ t'.Idle := by
  have hall : ∀ js : List (Fin N), ∃ t', Calmly M i v t t' ∧
      ∀ j ∈ js, (t'.cluster.nodes j).backlog = [] := by
    intro js
    induction js with
    | nil => exact ⟨t,.start,List.forall_mem_nil _⟩
    | cons j js ih =>
      obtain ⟨t1,hrun,hidle⟩ := ih
      obtain ⟨t2,hmoved,_⟩ := t1.drain (M := M) (i := i) (v := v) j
      refine ⟨t2,hrun.trans hmoved.run,fun k hk => ?_⟩
      by_cases hkj : k = j
      · rw [hkj]
        exact hmoved.idle
      · rw [hmoved.others k hkj]
        exact hidle k ((List.mem_cons.mp hk).resolve_left hkj)
  obtain ⟨t',hrun,hidle⟩ := hall (List.finRange N)
  exact ⟨t',hrun,fun j => hidle j (List.mem_finRange j)⟩

/-- A packet on its way can be handed over when those before it on its link are
lost; packets on other links stay. -/
theorem Timed.receive (t : Timed N V) {pkt : Packet N V} (hpkt : pkt ∈ t.cluster.flight)
    (hidle : (t.cluster.nodes pkt.dst).backlog = []) :
    let r := (t.memory pkt.dst).handleMessage ⟨t.clock,0⟩ (M.ids pkt.src) pkt.msg
    ∃ t', Moved M i v t t' pkt.dst ∧
      Settles r.1 (t'.memory pkt.dst) ∧
      (r.1.lostProposals = [] → t'.memory pkt.dst = r.1.rested []) ∧
      (∀ out ∈ r.2, ∀ x ∈ M.route pkt.dst out, x ∈ t'.cluster.flight) ∧
      ∀ x ∈ t.cluster.flight, ¬ (x.src = pkt.src ∧ x.dst = pkt.dst) → x ∈ t'.cluster.flight := by
  intro r
  obtain ⟨old,new,hflight⟩ := List.append_of_mem hpkt
  set kept := old.filter fun x => ¬ (x.src = pkt.src ∧ x.dst = pkt.dst) with hkept
  have hsub : (kept ++ pkt :: new).Sublist t.cluster.flight := by
    rw [hflight]
    exact List.filter_sublist.append (List.Sublist.refl _)
  set t1 : Timed N V := ⟨{ t.cluster with flight := kept ++ pkt :: new },t.clock⟩ with ht1
  have hw : t1.cluster.Wakes M (.deliver kept.length ⟨t.clock,0⟩ .completes) pkt.dst ⟨t.clock,0⟩
      (.message (M.ids pkt.src) pkt.msg) [] .completes (t1.cluster.flight.eraseIdx kept.length) :=
    .deliver (by simp [ht1]) hidle
  have herase : t1.cluster.flight.eraseIdx kept.length = kept ++ new := by
    simp [ht1,List.eraseIdx_append_of_length_le]
  rw [herase] at hw
  have hcalm : Calm i v t1 (.deliver kept.length ⟨t.clock,0⟩ .completes) := by
    refine ⟨rfl,fun x hx y hy => ?_⟩
    have hxp : x = pkt := by
      have : t1.cluster.flight[kept.length]? = some pkt := by simp [ht1]
      rw [this] at hx
      exact (Option.some.inj hx).symm
    have hyk : y ∈ kept := by simpa [ht1] using hy
    rw [hxp]
    exact of_decide_eq_true (List.mem_filter.mp hyk).2
  set t2 : Timed N V := ⟨({ t1.cluster with flight := kept ++ new } : Cluster N V).take M pkt.dst
    ⟨t.clock,0⟩ (.message (M.ids pkt.src) pkt.msg) [] .completes,t.clock⟩ with ht2
  have hmem : t2.memory pkt.dst = r.1.rested [] := by
    rw [Timed.memory,Cluster.take_protocol]
    rfl
  have hback : (t2.cluster.nodes pkt.dst).backlog = r.1.lostProposals := by
    rw [Cluster.take_backlog]
    rfl
  have hfl : t2.cluster.flight = kept ++ new ++ r.2.flatMap (M.route pkt.dst) := Cluster.take_flight
  obtain ⟨t',hmoved,hcarry,hsame,hmore⟩ := t2.drain (M := M) (i := i) (v := v) pkt.dst
  refine ⟨t',⟨((Calmly.lose t hsub).trans (Calmly.wakes hw hcalm (le_refl _))).trans hmoved.run,
    fun k hk => ?_,hmoved.idle⟩,(hmem ▸ hcarry).settles,fun hlost => ?_,fun out hout x hx => ?_,fun x hx hne => ?_⟩
  · rw [hmoved.others k hk]
    exact Cluster.take_other hk
  · rw [hsame (hback.trans hlost),hmem]
  · refine hmore x ?_
    rw [hfl]
    exact List.mem_append_right _ (List.mem_flatMap.mpr ⟨out,hout,hx⟩)
  · refine hmore x ?_
    rw [hfl]
    rw [hflight] at hx
    refine List.mem_append_left _ (List.mem_append.mpr ?_)
    rcases List.mem_append.mp hx with hx | hx
    · exact Or.inl (List.mem_filter.mpr ⟨hx,decide_eq_true hne⟩)
    · rcases List.mem_cons.mp hx with rfl | hx
      · exact absurd ⟨rfl,rfl⟩ hne
      · exact Or.inr hx

end
end Raft
end Daccord
