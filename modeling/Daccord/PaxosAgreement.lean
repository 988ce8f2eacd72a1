import Daccord.PaxosSimulation

/-! Runs without restarts in which every call is mindful: the slots of all nodes
hold one value each, and elections recover what was chosen. The code does not
check what being mindful asks for; without it both fail. -/
namespace Daccord
namespace Paxos

open Voting

section
variable {V : Type} [DecidableEq V] {N : ℕ} {M : Membership N} {a : Abstract N V} {i j : Fin N}
  {p : PaxosProtocol V} {s s' : Cluster N V} {l : Label V N} {env : PaxosEnv}

def CrashFree (_ : Cluster N V) : Label V N → Prop
  | .restart .. => False
  | _ => True

def MindfulStep (s : Cluster N V) (l : Label V N) : Prop :=
  CrashFree s l ∧ ∀ t ∈ s.turn l, Mindful t.2.1 (s.nodes t.1).protocol t.2.2

omit [DecidableEq V] in
theorem Keeps.drain (h : Tidy p) (storage : AList fun _ : ℕ => V) :
    Keeps p (Process.drain ⟨p,storage⟩).protocol :=
  { Keeps.refl h with tidy := { h with pending := nofun } }

theorem Cluster.step_keeps (h : ∀ i, Tidy (s.nodes i).protocol) (hc : CrashFree s l)
    (hs : Cluster.step M s l = some s') (i : Fin N) :
    Keeps (s.nodes i).protocol (s'.nodes i).protocol := by
  rcases Cluster.step_cases hs with ⟨j,env,input,_,rfl⟩ | ⟨j,_,rfl⟩ | ⟨j,env,incarnation,rfl,_⟩
  · by_cases hij : i = j
    · subst hij
      simp only [Cluster.take,Function.update_self]
      exact (handle_lax env input (h i)).keeps (h i)
    · simp only [Cluster.take,Function.update_of_ne hij]
      exact .refl (h i)
  · by_cases hij : i = j
    · subst hij
      simp only [Function.update_self]
      exact .drain (h i) _
    · simp only [Function.update_of_ne hij]
      exact .refl (h i)
  · exact hc.elim

theorem Cluster.reaches_keeps {ok : Cluster N V → Label V N → Prop}
    (hok : ∀ s l, ok s l → CrashFree s l) (h : ∀ i, Tidy (s.nodes i).protocol)
    (hr : Runs.Reaches (Cluster.step M) ok s s') (i : Fin N) :
    Keeps (s.nodes i).protocol (s'.nodes i).protocol := by
  have hall : ∀ i, Keeps (s.nodes i).protocol (s'.nodes i).protocol := by
    refine hr.invariant (fun s' => ∀ i, Keeps (s.nodes i).protocol (s'.nodes i).protocol)
      (fun i => .refl (h i)) fun t l t' _ ih hl hs i => ?_
    exact (ih i).trans (Cluster.step_keeps (fun i => (ih i).tidy) (hok t l hl) hs i)
  exact hall i

omit [DecidableEq V] in
theorem Cluster.init_tidy (M : Membership N) (env : PaxosEnv) (i : Fin N) :
    Tidy ((Cluster.init M env : Cluster N V).nodes i).protocol := .new ..

omit [DecidableEq V] in
/-- A slot still to be taken has no promises: a proposer would have taken it. -/
theorem NodeOk.clear (h : NodeOk M a i p) (hN : 2 ≤ N) : p.Clear := by
  unfold PaxosProtocol.Clear
  rw [if_pos (by rw [h.quorum]; omega)]
  refine Or.inr fun slot hmem hle => ?_
  have hd := h.tidy.apart (AList.mem_keys.mpr hmem)
  exact ((h.slots hd).proposer.idle (h.tidy.idle hle)).2.1

omit [DecidableEq V] in
theorem NodeOk.fences (h : NodeOk M a i p) (hN : 2 ≤ N) {input : Input V}
    (hm : Mindful env p input) : Fences p input := by
  cases input with
  | propose value => exact fun _ => h.clear hN
  | tick => exact h.clear hN
  | message sender msg =>
    cases msg with
    | promise slot pn accepted => exact hm.2
    | _ => trivial

omit [DecidableEq V] in
theorem NodeOk.drain (h : NodeOk M a i p) (storage : AList fun _ : ℕ => V) :
    NodeOk M a i (Process.drain ⟨p,storage⟩).protocol :=
  { h with
    tidy := { h.tidy with pending := nofun }
    election := fun e he => { h.election e he with }
    elections := fun r hr => (h.elections r hr).later fun _ => id }

theorem ClusterOk.step (hN : 2 ≤ N) (h : ClusterOk M a s) (hok : MindfulStep s l)
    (hs : Cluster.step M s l = some s') : ∃ a', ClusterOk M a' s' := by
  rcases Cluster.step_cases hs with ⟨j,env,input,ht,rfl⟩ | ⟨j,_,rfl⟩ | ⟨j,env,incarnation,rfl,_⟩
  · have hn := h.nodes j
    have hm : Mindful env (s.nodes j).protocol input := hok.2 _ ht
    have hin : InputOk M a j input := by
      rintro sender msg rfl
      obtain ⟨src,hsrc⟩ := Cluster.turn_message ht
      obtain ⟨hne,hid,hmsg⟩ := h.packets _ hsrc
      exact ⟨src,hne,hid,hmsg⟩
    have hmoves := handle_moves ⟨True,True,False,True,False,fun _ _ => True,0⟩ env input hn.tidy
      ⟨fun _ => hn.fences hN hm,fun _ => hm,False.elim,fun _ => hm.unpledged,False.elim,
        fun _ => by rw [hn.quorum]; omega,fun _ _ _ => trivial,Nat.zero_le _⟩
    obtain ⟨a',hg,hfl,hn',hout⟩ :=
      hmoves.simulates hN h.sound h.floors hn hin trivial trivial trivial
    refine ⟨a',h.update hg hfl hn' fun pkt hpkt => ?_⟩
    obtain ⟨o,ho,rfl,hdst,hmsg⟩ := mem_packets hpkt
    rw [hmsg]
    exact ⟨hdst.symm,hn.ident,hout o ho⟩
  · have hn : NodeOk M a j (s.nodes j).drain.protocol := (h.nodes j).drain (s.nodes j).storage
    have hup : ClusterOk M a ⟨_,s.sent ++ []⟩ := h.update (.refl M j a) h.floors hn nofun
    rw [List.append_nil] at hup
    exact ⟨a,hup⟩
  · exact hok.1.elim

theorem mindful_clusterOk (hN : 2 ≤ N)
    (h : Runs.Reaches (Cluster.step M) MindfulStep (Cluster.init M env) s) : ∃ a, ClusterOk M a s :=
  h.invariant (fun s => ∃ a, ClusterOk M a s) ⟨_,.init M env⟩
    fun _ _ _ _ ⟨_,ha⟩ hok hs => ha.step hN hok hs

/-- In mindful runs without restarts no two nodes ever decide different values
for one slot. -/
theorem decided_agree {s₁ s₂ : Cluster N V}
    (h₁ : Runs.Reaches (Cluster.step M) MindfulStep (Cluster.init M env) s₁)
    (h₂ : Runs.Reaches (Cluster.step M) MindfulStep s₁ s₂) {slot : ℕ} {v w : V}
    (hv : (s₁.nodes i).protocol.decidedSlots.lookup slot = some v)
    (hw : (s₂.nodes j).protocol.decidedSlots.lookup slot = some w) : v = w := by
  have htidy := fun i => (Cluster.reaches_keeps (fun _ _ hl => hl.1) (Cluster.init_tidy M env) h₁ i).tidy
  have hv' := (Cluster.reaches_keeps (fun _ _ hl => hl.1) htidy h₂ i).decided hv
  rcases Nat.lt_or_ge N 2 with hN | hN
  · have hij : i = j := Fin.ext (by omega)
    subst hij
    exact Option.some.inj (hv'.symm.trans hw)
  · obtain ⟨a,ha⟩ := mindful_clusterOk hN (h₁.trans h₂)
    obtain ⟨b,hb⟩ := (ha.nodes i).decided hv'
    obtain ⟨c,hc⟩ := (ha.nodes j).decided hw
    exact (ha.sound slot).agreement hb hc

/-- Every vote was for the value that its slot has. -/
def Settled (p : PaxosProtocol V) : Prop :=
  ∀ x ∈ p.record.votes, p.decidedSlots.lookup x.slot = some x.value

omit [DecidableEq V] in
theorem Settled.keeps {q : PaxosProtocol V} (h : Settled p) (hk : Keeps p q)
    (hv : q.record.votes = p.record.votes) : Settled q := by
  intro x hx
  rw [hv] at hx
  exact hk.decided (h x hx)

/-- A node that needs nobody else decides whatever it votes for. -/
theorem PaxosProtocol.selfAccept_alone (hq : p.quorumSize ≤ 1) (env : PaxosEnv) (slot : ℕ)
    (inst : PaxosInstance V) (pn : ProposalNumber) (v : V) :
    p.selfAccept env slot inst pn v = ((p.putInstance slot (inst.selfVote p.nodeId pn v)).noteVote
      slot pn v).conclude env slot v := by
  have hcard : p.quorumSize ≤ (inst.selfVote p.nodeId pn v).acceptsReceived.card :=
    hq.trans (Finset.card_pos.mpr ⟨p.nodeId,Finset.mem_insert_self _ _⟩)
  unfold PaxosProtocol.selfAccept
  exact if_pos hcard

theorem Settled.selfAccept (h : Settled p) (hq : p.quorumSize ≤ 1) (env : PaxosEnv) {slot : ℕ}
    {inst : PaxosInstance V} {pn : ProposalNumber} {v : V}
    (hk : Keeps p (p.selfAccept env slot inst pn v).1) :
    Settled (p.selfAccept env slot inst pn v).1 := by
  have heq := PaxosProtocol.selfAccept_alone hq env slot inst pn v
  intro x hx
  rw [heq,PaxosProtocol.conclude_votes] at hx
  rcases List.mem_append.mp hx with hx | hx
  · exact hk.decided (h x hx)
  · rw [List.mem_singleton.mp hx,heq]
    exact PaxosProtocol.lookup_conclude ..

theorem Move.settled {q : PaxosProtocol V} {R : Rules V} {input : Input V}
    {out : List (Outgoing (PaxosMessage V))} (ht : Tidy p) (h : Settled p) (hq : p.quorumSize ≤ 1)
    (hin : ∀ sender msg, input ≠ .message sender msg)
    (hm : Move R env input p q out) : Settled q := by
  have hk := hm.keeps ht
  cases hm with
  | aside hq => exact h.keeps hk hq.votes
  | accept he => exact absurd he (hin _ _)
  | phase2 => exact h.selfAccept hq env hk
  | belated => exact h.keeps hk (p.conclude_votes ..)
  | settle => exact h.keeps hk (p.conclude_votes ..)
  | learn => exact h.keeps hk ((p.lose _).conclude_votes ..)
  | lead =>
    have hnext : Settled { p with nextSlot := p.nextSlot + 1 } := h
    refine hnext.selfAccept hq env (.selfAccept ht.allocate env ht.next_not_decided ?_ _ _)
    exact fun _ => Nat.lt_succ_self _
  | submit _ _ hfree =>
    obtain ⟨_,_,_,heq⟩ := PaxosProtocol.submit_frame ht env _ hfree
    exact h.keeps hk (by rw [heq])
  | replay hr hv hl ho hs =>
    unfold PaxosProtocol.replayAccept at hk ⊢
    rw [if_neg hs] at hk ⊢
    exact h.selfAccept hq env hk
  | _ => exact h.keeps hk rfl

theorem Moves.settled {q : PaxosProtocol V} {R : Rules V} {input : Input V}
    {out : List (Outgoing (PaxosMessage V))} (ht : Tidy p) (h : Settled p) (hq : p.quorumSize ≤ 1)
    (hin : ∀ sender msg, input ≠ .message sender msg)
    (hm : Moves R env input p q out) : Settled q := by
  induction hm with
  | nil => exact h
  | snoc hmoves hlast ih =>
    have hk := hmoves.keeps ht
    exact hlast.settled hk.tidy ih (hk.quorumSize.trans_le hq) hin

/-- Nobody to talk to: nothing is sent, and every vote decides. -/
structure Alone (s : Cluster N V) : Prop where
  sent : s.sent = []
  nodes : ∀ i, Tidy (s.nodes i).protocol ∧ (s.nodes i).protocol.quorumSize ≤ 1 ∧
    Settled (s.nodes i).protocol

omit [DecidableEq V] in
theorem Alone.init (hN : N < 2) (M : Membership N) (env : PaxosEnv) :
    Alone (Cluster.init M env : Cluster N V) :=
  ⟨rfl,fun i => ⟨Cluster.init_tidy M env i,show N / 2 + 1 ≤ 1 by omega,nofun⟩⟩

omit [DecidableEq V] in
theorem packets_alone (hN : N < 2) (sender : NodeId) (outs : List (Outgoing (PaxosMessage V))) :
    packets M i sender outs = [] := by
  refine List.eq_nil_iff_forall_not_mem.mpr fun pkt hpkt => ?_
  obtain ⟨_,_,_,hdst,_⟩ := mem_packets hpkt
  exact hdst (Fin.ext (by omega))

theorem Alone.step (hN : N < 2) (h : Alone s) (hc : CrashFree s l)
    (hs : Cluster.step M s l = some s') : Alone s' := by
  have hk := Cluster.step_keeps (fun i => (h.nodes i).1) hc hs
  rcases Cluster.step_cases hs with ⟨j,env,input,ht,rfl⟩ | ⟨j,_,rfl⟩ | ⟨j,env,incarnation,rfl,_⟩
  · refine ⟨by rw [Cluster.take,packets_alone hN,h.sent]; rfl,fun i => ?_⟩
    obtain ⟨htidy,hq,hsettled⟩ := h.nodes i
    refine ⟨(hk i).tidy,(hk i).quorumSize.trans_le hq,?_⟩
    have hij : i = j := Fin.ext (by omega)
    subst hij
    have hin : ∀ sender msg, input ≠ .message sender msg := by
      rintro sender msg rfl
      obtain ⟨src,hsrc⟩ := Cluster.turn_message ht
      rw [h.sent] at hsrc
      cases hsrc
    simp only [Cluster.take,Function.update_self]
    exact (handle_lax env input htidy).settled htidy hsettled hq hin
  · refine ⟨h.sent,fun i => ⟨(hk i).tidy,(hk i).quorumSize.trans_le (h.nodes i).2.1,?_⟩⟩
    have hij : i = j := Fin.ext (by omega)
    subst hij
    simp only [Function.update_self]
    exact (h.nodes i).2.2
  · exact hc.elim

theorem alone_of_reaches {ok : Cluster N V → Label V N → Prop} (hN : N < 2)
    (hok : ∀ s l, ok s l → CrashFree s l)
    (h : Runs.Reaches (Cluster.step M) ok (Cluster.init M env) s) : Alone s :=
  h.invariant Alone (.init hN M env) fun _ _ _ _ ih hl hs => ih.step hN (hok _ _ hl) hs

omit [DecidableEq V] in
theorem ClusterOk.chosen (h : ClusterOk M a s) {slot : ℕ} {b : ProposalNumber} {v : V}
    {Q : Finset (Fin N)} (hQ : N / 2 + 1 ≤ Q.card)
    (hv : ∀ j ∈ Q, ⟨slot,b,v⟩ ∈ (s.nodes j).protocol.record.votes) : Chosen (a.slots slot) b v := by
  refine ⟨Q,?_,fun j hj => (h.nodes j).votes _ (hv j hj)⟩
  unfold Majority
  rw [Fintype.card_fin]
  omega

/-- In mindful runs without restarts, what a quorum has accepted below the
number of an election that was won, in a slot the election asked about, is
decided at the new leader or among the values it replays. -/
theorem election_recovers (h : Runs.Reaches (Cluster.step M) MindfulStep (Cluster.init M env) s)
    {r : Election V} (hr : r ∈ (s.nodes i).protocol.record.elections) {slot : ℕ}
    (hs : r.sinceSlot ≤ slot) {b : ProposalNumber} (hb : b < r.number) {v : V} {Q : Finset (Fin N)}
    (hQ : N / 2 + 1 ≤ Q.card) (hv : ∀ j ∈ Q, ⟨slot,b,v⟩ ∈ (s.nodes j).protocol.record.votes) :
    (s.nodes i).protocol.decidedSlots.lookup slot = some v ∨ (slot,v) ∈ r.replayed := by
  rcases Nat.lt_or_ge N 2 with hN | hN
  · obtain ⟨j,hj⟩ := Finset.card_pos.mp (show 0 < Q.card by omega)
    have hij : i = j := Fin.ext (by omega)
    subst hij
    exact Or.inl (((alone_of_reaches hN (fun _ _ hl => hl.1) h).nodes i).2.2 _ (hv i hj))
  · obtain ⟨a,ha⟩ := mindful_clusterOk hN h
    have hch := ha.chosen hQ hv
    have hel := (ha.nodes i).elections r hr
    rcases hel.recovered slot hs with hd | ⟨w,hw⟩ | hun
    · obtain ⟨w,hw⟩ := Option.isSome_iff_exists.mp (AList.lookup_isSome.mpr hd)
      obtain ⟨c,hc⟩ := (ha.nodes i).decided hw
      rw [(ha.sound slot).agreement hch hc]
      exact Or.inl hw
    · rw [(hel.replayed _ hw).chosen hb hch]
      exact Or.inr hw
    · exact absurd hch (hun.not_chosen hb)

end

section Example
variable {V : Type} [DecidableEq V] {N : ℕ}

instance (s : Cluster N V) : (l : Label V N) → Decidable (CrashFree s l)
  | .restart .. => .isFalse id
  | .act .. | .deliver .. | .drain _ => .isTrue trivial

instance (s : Cluster N V) (l : Label V N) : Decidable (MindfulStep s l) :=
  inferInstanceAs (Decidable
    (CrashFree s l ∧ ∀ t ∈ s.turn l, Mindful t.2.1 (s.nodes t.1).protocol t.2.2))

def firstDecided : Cluster 3 ℕ :=
  Runs.after (Cluster.step (trio false)) MindfulStep (Cluster.init (trio false) (.steady 0))
    [.act 2 (.steady 1) (some 5),.deliver 0 (.steady 2),.deliver 2 (.steady 3),
      .deliver 3 (.steady 4),.deliver 5 (.steady 5)] (by decide +kernel)

def bothDecided : Cluster 3 ℕ :=
  Runs.after (Cluster.step (trio false)) MindfulStep firstDecided [.deliver 6 (.steady 6)]
    (by decide +kernel)

theorem decided_agree_learnt :
    (firstDecided.nodes 2).protocol.decidedSlots.lookup 0 = some 5 ∧
      ∃ w, (bothDecided.nodes 0).protocol.decidedSlots.lookup 0 = some w ∧ 5 = w := by
  have hfirst : (firstDecided.nodes 2).protocol.decidedSlots.lookup 0 = some 5 := by decide +kernel
  have hboth : (bothDecided.nodes 0).protocol.decidedSlots.lookup 0 = some 5 := by decide +kernel
  exact ⟨hfirst,5,hboth,decided_agree (M := trio false)
    (Runs.after_reaches .start (by decide +kernel)) (Runs.after_reaches .start (by decide +kernel))
    hfirst hboth⟩

/-- Node 2 decides 1 in slot 0 with the vote of node 0. Node 0, which has not
heard of the decision, takes the slot for a proposal at the lower number. -/
def overwritten : Cluster 3 ℕ :=
  Runs.after (Cluster.step (trio false)) CrashFree (Cluster.init (trio false) (.steady 0))
    [.act 2 (.steady 1) (some 1),.deliver 0 (.steady 2),.deliver 2 (.steady 3),
      .deliver 3 (.steady 4),.deliver 5 (.steady 5),.act 0 (.steady 6) (some 2),
      .deliver 8 (.steady 7),.deliver 10 (.steady 8),.deliver 11 (.steady 9),
      .deliver 13 (.steady 10)] (by decide +kernel)

theorem decided_differ :
    Runs.Reaches (Cluster.step (trio false)) CrashFree (Cluster.init (trio false) (.steady 0))
        overwritten ∧
      (overwritten.nodes 0).protocol.decidedSlots.lookup 0 = some 2 ∧
      (overwritten.nodes 2).protocol.decidedSlots.lookup 0 = some 1 :=
  ⟨Runs.after_reaches .start (by decide +kernel),by decide +kernel,by decide +kernel⟩

/-- Nodes 0 and 1 have accepted 7; node 1 is elected and replays it. -/
def recovered : Cluster 3 ℕ :=
  Runs.after (Cluster.step (trio true)) MindfulStep (Cluster.init (trio true) (.steady 0))
    [.act 0 (.steady 1) (some 7),.deliver 0 (.steady 2),.deliver 2 (.steady 3),
      .deliver 3 (.steady 4),.act 1 (.steady 600) none,.deliver 7 (.steady 601),
      .deliver 8 (.steady 602)] (by decide +kernel)

theorem election_recovers_replayed :
    ⟨.mk 1 ⟨"b",1⟩,0,[(0,7)]⟩ ∈ (recovered.nodes 1).protocol.record.elections ∧
      ((recovered.nodes 1).protocol.decidedSlots.lookup 0 = some 7 ∨
        (0,7) ∈ (⟨.mk 1 ⟨"b",1⟩,0,[(0,7)]⟩ : Election ℕ).replayed) := by
  have hr : ⟨.mk 1 ⟨"b",1⟩,0,[(0,7)]⟩ ∈ (recovered.nodes 1).protocol.record.elections := by
    decide +kernel
  exact ⟨hr,election_recovers (M := trio true) (Runs.after_reaches .start (by decide +kernel)) hr
    le_rfl (b := .mk 1 ⟨"a",1⟩) (by decide) (Q := {0,1}) (by decide) (by decide +kernel)⟩

/-- Node 0 has decided 7 with the vote of node 1; node 2 is elected with the
promise of node 0, which reports nothing about a slot it has decided. -/
def unrecovered : Cluster 3 ℕ :=
  Runs.after (Cluster.step (trio true)) CrashFree (Cluster.init (trio true) (.steady 0))
    [.act 0 (.steady 1) (some 7),.deliver 0 (.steady 2),.deliver 1 (.steady 3),
      .deliver 2 (.steady 4),.deliver 4 (.steady 5),.deliver 6 (.steady 6),
      .act 2 (.steady 600) none,.deliver 9 (.steady 601),.deliver 11 (.steady 602)]
    (by decide +kernel)

theorem chosen_not_recovered :
    Runs.Reaches (Cluster.step (trio true)) CrashFree (Cluster.init (trio true) (.steady 0))
        unrecovered ∧
      (∀ j ∈ ({0,1} : Finset (Fin 3)),
        ⟨0,.mk 1 ⟨"a",1⟩,7⟩ ∈ (unrecovered.nodes j).protocol.record.votes) ∧
      ∃ r ∈ (unrecovered.nodes 2).protocol.record.elections, r.sinceSlot = 0 ∧
        ProposalNumber.mk 1 ⟨"a",1⟩ < r.number ∧ r.replayed = [] ∧
        (unrecovered.nodes 2).protocol.decidedSlots.lookup 0 = none :=
  ⟨Runs.after_reaches .start (by decide +kernel),by decide +kernel,by decide +kernel⟩

end Example

end Paxos
end Daccord
