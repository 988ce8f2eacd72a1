import Daccord.RaftBallots

/-! Commits when nodes come back under new incarnations. A leader keeps the match
indexes by full identity, so a quorum of them is one of distinct members only as
long as no member is entered under two of its identities. -/
namespace Daccord
namespace Raft

open ReplicatedLog (State)

variable {V W V' W' : Type} {N : ℕ}

/-- If the leader enters this answer in `match_index`, the sender's name is not
there under another incarnation. -/
def RaftProtocol.CountsOnce (p : RaftProtocol V) (sender : NodeId) : RaftMessage V → Prop
  | .appendEntriesResponse t success mi _ _ => p.Counts t success mi →
      ∀ id ∈ p.matchIndex.keys, id.name = sender.name → id = sender
  | _ => True

instance (p : RaftProtocol V) (sender : NodeId) (msg : RaftMessage V) :
    Decidable (p.CountsOnce sender msg) :=
  match msg with
  | .appendEntriesResponse t success mi _ _ =>
    inferInstanceAs (Decidable (p.Counts t success mi → _))
  | .requestVote .. => isTrue trivial
  | .requestVoteResponse .. => isTrue trivial
  | .appendEntries .. => isTrue trivial
  | .forward .. => isTrue trivial

def Fleet.CountsOnce (s : Fleet N V W) : Fleet.Label V N → Prop
  | .deliver pos _ _ => ∀ pkt ∈ s.flight[pos]?,
      (s.nodes pkt.dst).protocol.CountsOnce pkt.msg.sender pkt.msg.variant
  | _ => True

instance (s : Fleet N V W) (l : Fleet.Label V N) : Decidable (s.CountsOnce l) :=
  match l with
  | .deliver pos _ _ => inferInstanceAs (Decidable (∀ pkt ∈ s.flight[pos]?, _))
  | .act .. => isTrue trivial
  | .repropose .. => isTrue trivial
  | .restart .. => isTrue trivial
  | .lose .. => isTrue trivial

/-- The cluster the members form, whoever signs their messages. -/
def Fleet.cluster (s : Fleet N V V) : Cluster N V where
  nodes := s.nodes
  flight := s.flight.map (Packet.map Message.variant)
  sent := s.sent.map (Packet.map Message.variant)
  emitted := s.emitted
  elected := []

structure Fleet.Tallied (M : Named N) (a : Abstract N V) (s : Fleet N V V) : Prop where
  polling : s.Polling .exact M
  ok : ClusterOk M.byName True a s.cluster
  ordered : Ordered s.cluster

section
variable {M : Named N} {a : Abstract N V} {s s' : Fleet N V V} {l : Fleet.Label V N} {i : Fin N}
  {env : Env} {input : Input V} {rest : List V} {fate : Fate}
  {flight : List (Daccord.Packet N (Message V))}

theorem Fleet.Tallied.init (M : Named N) (env : Env) :
    (Fleet.init (.exact (V := V)) M env).Tallied M State.start :=
  ⟨.init .exact M env,.fresh M.members (fun _ => Eq.refl _) True env,
    by simp [Fleet.cluster,Fleet.init],by simp [Fleet.cluster,Fleet.init]⟩

theorem Fleet.cluster_take (s : Fleet N V V) (i : Fin N) (env : Env) (input : Input V)
    (rest : List V) (fate : Fate) :
    (s.take .exact M i env input rest fate).cluster =
      { s.cluster.turned i env input rest fate ((M.packets i (s.nodes i).protocol.nodeId
          ((fate.cut ((turn .exact env (s.nodes i).protocol input).effects .exact)).filterMap
            Effect.sent)).map (Packet.map Message.variant)) with elected := [] } := by
  simp only [Fleet.cluster,Fleet.take,Cluster.turned,List.map_append]

theorem Named.carried (M : Named N) (i : Fin N) (id : NodeId) (effects : List (Effect V V)) :
    Carried M.byName i effects
      ((M.packets i id (effects.filterMap Effect.sent)).map (Packet.map Message.variant)) := by
  intro pkt hpkt
  obtain ⟨y,hy,rfl⟩ := List.mem_map.mp hpkt
  obtain ⟨out,hout,hsrc,hdst,haddr,hmsg⟩ := Named.mem_packets hy
  exact ⟨hsrc,hdst,out,hout,haddr,congrArg Message.variant hmsg⟩

/-- No answer that comes in is of a member counted under another identity. -/
theorem Fleet.Polling.unseen (h : s.Polling .exact M) {pkt : Daccord.Packet N (Message V)}
    (hpkt : pkt ∈ s.flight)
    (hl : (s.nodes pkt.dst).protocol.CountsOnce pkt.msg.sender pkt.msg.variant) :
    Unseen M.byName True (s.nodes pkt.dst).protocol pkt.src pkt.msg.sender pkt.msg.variant := by
  have howns := (h.senders pkt hpkt).2.1
  cases hm : pkt.msg.variant with
  | requestVoteResponse t granted =>
    intro hcand hterm hgranted id hid howns'
    have hb : ballotOf pkt = some ⟨pkt.dst,pkt.src,t⟩ := by
      simp only [ballotOf,hm,hgranted,if_true]
    exact absurd howns' ((h.due pkt hpkt _ hb).2 hcand hterm id hid)
  | appendEntriesResponse t success mi ct ci =>
    rw [hm] at hl
    exact fun _ hcounts id hid howns' =>
      hl hcounts id (AList.mem_keys.mp hid) (howns'.symm.trans howns)
  | _ => trivial

theorem Fleet.Tallied.welcome (h : s.Tallied M a) (hw : s.Wakes l i env input rest fate flight)
    (hl : s.CountsOnce l) : Welcome M.byName True a i (s.nodes i).protocol input := by
  intro sender msg hmsg
  cases hw with
  | @act _ _ value => cases value <;> cases hmsg
  | repropose => cases hmsg
  | @deliver pos _ _ pkt hpkt =>
    cases hmsg
    have hmem := List.mem_of_getElem? hpkt
    have hmem' : Packet.map Message.variant pkt ∈ s.cluster.flight := List.mem_map_of_mem hmem
    obtain ⟨hne,hb⟩ := h.ok.packets _ (h.ok.flight _ hmem')
    exact ⟨pkt.src,hne,(h.polling.senders pkt hmem).2.1,hb,fun _ => h.ordered.keeps hmem',
      h.polling.unseen hmem (hl pkt hpkt)⟩

/-- What is left on the links is younger than the packet handed over. -/
theorem Fleet.Tallied.oldest (h : s.Tallied M a) (hw : s.Wakes l i env input rest fate flight)
    (hq : s.Queued l) {sender : NodeId} {msg : RaftMessage V} (hmsg : input = .message sender msg)
    {x : Daccord.Packet N (Message V)} (hx : x ∈ flight) (hdst : x.dst = i) {t k k' : ℕ}
    (hv : vouches msg = some (t,k)) (hv' : vouches x.msg.variant = some (t,k')) : k ≤ k' := by
  cases hw with
  | @act _ _ value => cases value <;> cases hmsg
  | repropose => cases hmsg
  | @deliver pos _ _ pkt hpkt =>
    cases hmsg
    have hpkt' : s.cluster.flight[pos]? = some (Packet.map Message.variant pkt) := by
      simp only [Fleet.cluster,List.getElem?_map,hpkt,Option.map_some]
    have hx' : Packet.map Message.variant x ∈ s.cluster.flight.eraseIdx pos := by
      rw [Fleet.cluster,List.eraseIdx_map]
      exact List.mem_map_of_mem hx
    refine Ordered.oldest h.ok h.ordered ?_ hpkt' hx' hdst hv hv'
    intro y hy
    rw [Fleet.cluster,← List.map_take] at hy
    obtain ⟨z,hz,rfl⟩ := List.mem_map.mp hy
    exact hq pkt hpkt z hz

theorem Fleet.Tallied.wakes (h : s.Tallied M a) (hw : s.Wakes l i env input rest fate flight)
    (hq : s.Queued l) (hl : s.CountsOnce l) :
    ∃ a', ({ s with flight := flight }.take .exact M i env input rest fate).Tallied M a' := by
  have hin := h.welcome hw hl
  have hfetched := h.polling.wakes hw
  have hsub := hfetched.1.map (Packet.map Message.variant)
  set s1 : Fleet N V V := { s with flight := flight }
  have hok1 : ClusterOk M.byName True a s1.cluster :=
    { h.ok with flight := fun x hx => h.ok.flight x (hsub.subset hx) }
  have hord1 : Ordered s1.cluster := h.ordered.sublist hsub
  have hcarried := M.carried i (s.nodes i).protocol.nodeId
    (fate.cut ((turn .exact env (s.nodes i).protocol input).effects .exact))
  obtain ⟨a',_,hok,_⟩ := hok1.turned env input rest fate hin hcarried
  have hord := hord1.turned hok1 env input rest fate hin hcarried (by
    intro sender msg hmsg pkt hpkt hdst t k k' hv hv'
    obtain ⟨x,hx,rfl⟩ := List.mem_map.mp hpkt
    exact h.oldest hw hq hmsg hx hdst hv hv')
  refine ⟨a',h.polling.take hfetched,?_,?_⟩
  · rw [Fleet.cluster_take]
    exact { hok with elected := nofun }
  · rw [Fleet.cluster_take]
    exact ⟨hord.links,hord.own⟩

theorem Fleet.Tallied.step (h : s.Tallied M a) (hq : s.Queued l) (hl : s.CountsOnce l)
    (hs : s.step .exact M l = some s') : ∃ a', s'.Tallied M a' := by
  have hpolling := h.polling.step hs
  rcases Fleet.step_cases hs with ⟨i,env,input,rest,fate,flight,hw,rfl⟩ | ⟨i,env,k,rfl,rfl⟩ |
    ⟨pos,rfl,rfl⟩
  · exact h.wakes hw hq hl
  · have hid : M.byName.owns i (M.born i k) := Eq.refl (M.ids i).name
    have hnode : s.reborn .exact M i env k =
        .boot .exact env (M.born i k) N M.config (s.cluster.nodes i).storage := rfl
    obtain ⟨a',_,hok⟩ := h.ok.reboot env hid hnode
    exact ⟨a',hpolling,{ hok with elected := nofun },h.ordered.reboot h.ok env hnode⟩
  · have hsub := (List.eraseIdx_sublist s.flight pos).map (Packet.map Message.variant)
    exact ⟨a,hpolling,{ h.ok with flight := fun x hx => h.ok.flight x (hsub.subset hx) },
      h.ordered.sublist hsub⟩

/-- What the nodes have in memory while node `i` is in the middle of a turn. -/
def Fleet.amid (s : Fleet N V W) (i : Fin N) (q : RaftProtocol V) : Fin N → RaftProtocol V :=
  Function.update (fun j => (s.nodes j).protocol) i q

/-- A quorum of members has the entry `e` at `n`, up to what a restart forgets. -/
def Replicated (A : Adapter V W) (p : Fin N → RaftProtocol V) (n : ℕ) (e : LogEntry V) : Prop :=
  ∃ Q : Finset (Fin N), N / 2 + 1 ≤ Q.card ∧ ∀ f ∈ Q, ∃ e' ∈ (p f).log[n]?,
    LogEntry.map A.strip e' = LogEntry.map A.strip e

/-- A commit index that a turn leads to covers entries of a quorum. -/
theorem Fleet.Tallied.committed (h : s.Tallied M a)
    (hin : Welcome M.byName True a i (s.nodes i).protocol input) (env : Env) {c n : ℕ}
    (hc : ((s.nodes i).protocol.handle env input).1.commitIndex = some c) (hn : n ≤ c) :
    ∃ e, ((s.nodes i).protocol.handle env input).1.log[n]? = some e ∧
      Replicated .exact (s.amid i ((s.nodes i).protocol.handle env input).1) n e := by
  have hi : NodeOk M.byName True a i (s.nodes i) := h.ok.nodes i
  obtain ⟨a1,hsteps,htr,_⟩ := (hi.tracks.handle h.ok.sound hi.solo hi.synced.clean env hin).full
  set q := ((s.nodes i).protocol.handle env input).1
  have hs1 := h.ok.sound.steps hsteps
  have hset := htr.commit trivial c hc
  have hlt : n < (a1.log i).length := lt_of_lt_of_le (Nat.lt_succ_of_le hn) hset.length_le
  obtain ⟨Q,hQ,hheld⟩ := (hs1.durable trivial).settled_held hs1.base hset (Nat.lt_succ_of_le hn)
  have hlogs : ∀ f, (s.amid i q f).log = a1.log f := by
    refine (Function.forall_update_iff _ fun f (p : RaftProtocol V) => p.log = a1.log f).mpr ⟨htr.log,fun f hf => ?_⟩
    exact ((h.ok.nodes f).tracks.apart h.ok.sound hsteps hf).log
  refine ⟨(a1.log i)[n],by rw [htr.log,List.getElem?_eq_getElem hlt],Q,?_,fun f hf => ?_⟩
  · unfold Majority at hQ
    rw [Fintype.card_fin] at hQ
    omega
  · refine ⟨(a1.log i)[n],?_,rfl⟩
    rw [hlogs,hheld f hf,List.getElem?_eq_getElem hlt]
    rfl

end

section
variable {A : Adapter V W} {M : Named N} {f : V → V'} {g : W → W'} {s s' : Fleet N V W}
  {l : Fleet.Label V N} {i : Fin N} {env : Env}

theorem RaftProtocol.countsOnce_map (p : RaftProtocol V) (sender : NodeId) (msg : RaftMessage V) :
    (p.map f).CountsOnce sender (RaftMessage.map f msg) ↔ p.CountsOnce sender msg := by
  cases msg with
  | appendEntriesResponse t success mi ct ci =>
    simp only [RaftProtocol.CountsOnce,RaftMessage.map,RaftProtocol.Counts,RaftProtocol.map,
      List.length_map]
  | _ => rfl

theorem Fleet.countsOnce_map (s : Fleet N V W) (l : Fleet.Label V N) :
    (s.map f g).CountsOnce (l.map f) ↔ s.CountsOnce l := by
  cases l with
  | deliver pos env fate =>
    simp only [Fleet.CountsOnce,Fleet.Label.map,Fleet.getElem_map,Option.mem_def,
      Option.map_eq_some_iff,forall_exists_index,and_imp,forall_apply_eq_imp_iff₂]
    exact forall₂_congr fun pkt _ => RaftProtocol.countsOnce_map _ _ _
  | _ => rfl

theorem Fleet.tallied_reaches
    (h : Runs.Reaches (Fleet.step A M) (fun s l => s.Queued l ∧ s.CountsOnce l) (.init A M env) s) :
    ∃ a, (s.map A.strip id).Tallied M a := by
  induction h with
  | start =>
    rw [Fleet.init_map A.over_exact]
    exact ⟨_,.init M env⟩
  | @next s s' l _ hl hs ih =>
    obtain ⟨a,ha⟩ := ih
    refine ha.step ((s.queued_map l).mpr hl.1) ((s.countsOnce_map l).mpr hl.2) ?_
    rw [Fleet.step_map A.over_exact,hs]
    rfl

theorem Fleet.amid_map (s : Fleet N V W) (i : Fin N) (q : RaftProtocol V) :
    (s.map f g).amid i (q.map f) = fun j => (s.amid i q j).map f := by
  funext j
  by_cases hj : j = i
  · subst hj
    simp only [Fleet.amid,Function.update_self]
  · simp only [Fleet.amid,Function.update_of_ne hj]
    rfl

theorem Replicated.of_map {p : Fin N → RaftProtocol V} {n : ℕ} {e : LogEntry V}
    (h : Replicated .exact (fun j => (p j).map A.strip) n (LogEntry.map A.strip e)) :
    Replicated A p n e := by
  obtain ⟨Q,hQ,hheld⟩ := h
  refine ⟨Q,hQ,fun j hj => ?_⟩
  obtain ⟨e',he',heq⟩ := hheld j hj
  obtain ⟨e'',he'',rfl⟩ := Option.map_eq_some_iff.mp ((List.getElem?_map ..).symm.trans he')
  exact ⟨e'',he'',heq⟩

/-- Leaders are elected by a quorum of members, and what a node holds to be
committed is in the logs of a quorum of members as long as no leader has counted
one of them under two of its identities. -/
theorem quorums_of_members (A : Adapter V W) (M : Named N) (env : Env) (s : Fleet N V W)
    (h : Runs.Reaches (Fleet.step A M) Fleet.Queued (.init A M env) s) (l : Fleet.Label V N)
    (i : Fin N) (t : Turn V W) (fate : Fate) (ht : s.turnOf A l = some (i,t,fate)) :
    (t.handled.role = .leader → Elected s.sent i t.handled.currentTerm) ∧
    (Runs.Reaches (Fleet.step A M) (fun s l => s.Queued l ∧ s.CountsOnce l) (.init A M env) s →
      s.CountsOnce l → ∀ c n, t.handled.commitIndex = some c → n ≤ c →
        ∃ e, t.handled.log[n]? = some e ∧ Replicated A (s.amid i t.handled) n e) := by
  obtain ⟨env',input,rest,flight,hw,rfl⟩ := Fleet.turnOf_wakes ht
  have hpolling := Fleet.polling_reaches h
  refine ⟨(hpolling.handled (hpolling.wakes hw) env').elected,fun hr hl c n hc hn => ?_⟩
  obtain ⟨a,ha⟩ := Fleet.tallied_reaches hr
  have hin := ha.welcome (hw.map (f := A.strip) (g := id)) ((s.countsOnce_map l).mpr hl)
  have hhandle : (((s.map A.strip id).nodes i).protocol.handle env' (Input.map A.strip input)).1 =
      ((s.nodes i).protocol.handle env' input).1.map A.strip :=
    congrArg Prod.fst (RaftProtocol.handle_map ..)
  have hcommitted := ha.committed hin env' (c := c) (n := n)
  rw [hhandle,Fleet.amid_map] at hcommitted
  obtain ⟨e,he,hrep⟩ := hcommitted hc hn
  obtain ⟨e',he',rfl⟩ := Option.map_eq_some_iff.mp ((List.getElem?_map ..).symm.trans he)
  exact ⟨e',he',hrep.of_map⟩

def quartet : Named 4 where
  ids i := ⟨["a","b","c","d"][i],1⟩
  distinct := by decide
  config := ⟨50,150,300⟩
  names := by decide

def openAt (now pos : ℕ) : Fleet.Label (Pending ℕ) 4 := .deliver pos ⟨now,0⟩ .completes

/-- `a` is elected by `b` and `c`, takes a value, and `b` stores and acknowledges it. -/
def storedOnce : List (Fleet.Label (Pending ℕ) 4) :=
  [.act 0 ⟨1000,0⟩ none .completes,openAt 1001 0,openAt 1002 0,openAt 1003 1,openAt 1004 1,
    .act 0 ⟨1005,0⟩ (some ⟨1,7⟩) .completes,openAt 1006 1,openAt 1007 3]

/-- `c` stores the value too; its acknowledgement is on its way. -/
def storedTwice : Fleet 4 (Pending ℕ) ℕ :=
  Runs.after (Fleet.step .pending quartet) (fun s l => s.Queued l ∧ s.CountsOnce l)
    (.init .pending quartet ⟨0,0⟩)
    (storedOnce ++ [openAt 1008 1,openAt 1009 2,openAt 1010 3,openAt 1011 3,openAt 1012 3])
    (by decide +kernel)

/-- `b` starts again, and answers a heartbeat as a new incarnation. -/
def answeredTwice : Fleet 4 (Pending ℕ) ℕ :=
  Runs.after (Fleet.step .pending quartet) Fleet.Queued (.init .pending quartet ⟨0,0⟩)
    (storedOnce ++ [.restart 1 ⟨1008,0⟩ 2,openAt 1009 5,openAt 1010 5,
      .act 0 ⟨1100,0⟩ none .completes,openAt 1101 5])
    (by decide +kernel)

/-- The turn of `a` on an acknowledgement of the first entry in term 1. -/
def acknowledged (s : Fleet 4 (Pending ℕ) ℕ) (now : ℕ) (sender : NodeId) : Turn (Pending ℕ) ℕ :=
  turn .pending ⟨now,0⟩ (s.nodes 0).protocol
    (.message sender (.appendEntriesResponse 1 true (some 0) none none))

theorem quorums_of_members_storedTwice :
    Elected storedTwice.sent 0 1 ∧
    (acknowledged storedTwice 1013 ⟨"c",1⟩).handled.commitIndex = some 0 ∧
    ∃ e, (acknowledged storedTwice 1013 ⟨"c",1⟩).handled.log[0]? = some e ∧
      Replicated .pending (storedTwice.amid 0 (acknowledged storedTwice 1013 ⟨"c",1⟩).handled) 0 e := by
  have hreach : Runs.Reaches (Fleet.step .pending quartet) (fun s l => s.Queued l ∧ s.CountsOnce l)
      (.init .pending quartet ⟨0,0⟩) storedTwice := Runs.after_reaches .start (by decide +kernel)
  have hpkt : storedTwice.flight[3]? =
      some ⟨2,0,⟨⟨"c",1⟩,.appendEntriesResponse 1 true (some 0) none none⟩⟩ := by decide +kernel
  have hw : storedTwice.Wakes (openAt 1013 3) 0 _ _ _ _ _ := .deliver hpkt (by decide +kernel)
  have hcommit : (acknowledged storedTwice 1013 ⟨"c",1⟩).handled.commitIndex = some 0 := by
    decide +kernel
  obtain ⟨hvotes,hlogs⟩ := quorums_of_members .pending quartet ⟨0,0⟩ storedTwice
    (hreach.weaken fun _ _ h => h.1) _ 0 _ _ (hw.turnOf _)
  exact ⟨hvotes (by decide +kernel),hcommit,hlogs hreach (by decide +kernel) 0 0 hcommit le_rfl⟩

/-- Both incarnations of `b` are in the quorum behind the commit. -/
theorem replica_counted_twice :
    Runs.Reaches (Fleet.step .pending quartet) Fleet.Queued (.init .pending quartet ⟨0,0⟩)
      answeredTwice ∧
    answeredTwice.Queued (openAt 1102 7) ∧
    answeredTwice.turnOf .pending (openAt 1102 7) =
      some (0,acknowledged answeredTwice 1102 ⟨"b",2⟩,.completes) ∧
    (answeredTwice.nodes 0).protocol.commitIndex = none ∧
    (acknowledged answeredTwice 1102 ⟨"b",2⟩).handled.role = .leader ∧
    (acknowledged answeredTwice 1102 ⟨"b",2⟩).handled.commitIndex = some 0 ∧
    (acknowledged answeredTwice 1102 ⟨"b",2⟩).handled.log[0]? = some ⟨1,⟨1,7⟩⟩ ∧
    ¬ Replicated .pending
      (answeredTwice.amid 0 (acknowledged answeredTwice 1102 ⟨"b",2⟩).handled) 0 ⟨1,⟨1,7⟩⟩ := by
  have hpkt : answeredTwice.flight[7]? =
      some ⟨1,0,⟨⟨"b",2⟩,.appendEntriesResponse 1 true (some 0) none none⟩⟩ := by decide +kernel
  have hw : answeredTwice.Wakes (openAt 1102 7) 0 _ _ _ _ _ := .deliver hpkt (by decide +kernel)
  refine ⟨Runs.after_reaches .start (by decide +kernel),by decide +kernel,hw.turnOf _,
    by decide +kernel,by decide +kernel,by decide +kernel,by decide +kernel,?_⟩
  rintro ⟨Q,hQ,hheld⟩
  have hempty : ∀ f ∉ ({0,1} : Finset (Fin 4)), (answeredTwice.amid 0
      (acknowledged answeredTwice 1102 ⟨"b",2⟩).handled f).log[0]? = none := by decide +kernel
  have hsub : Q ⊆ {0,1} := by
    intro f hf
    by_contra hout
    obtain ⟨e,he,_⟩ := hheld f hf
    rw [hempty f hout] at he
    cases he
  exact absurd (hQ.trans (Finset.card_le_card hsub)) (by decide)

end
end Raft
end Daccord
