import Daccord.Deployment
import Daccord.RaftIdentity

/-! Every run of a deployed Raft cluster is a run of `Fleet`, and what follows for those
who use it. -/
namespace Daccord
namespace EventLoop

open Raft (RaftProtocol RaftStorage RaftNode Fleet Named Message Synced)

variable {N : ℕ} {B V : Type}

/-! ### Every run is a run of the fleet -/

/-- The node of the fleet that stands for a node. -/
structure Stands (M : Named N) (C : Setup) (w : World (ProtocolImpl V) B V)
    (n : RaftNode (Pending V) V) : Prop where
  disk : ∃ p, w.protocol = .raft p n.storage
  fresh : w.started = false → ∃ env, w.protocol = .raft (.new env C.nodeId N M.config) n.storage
  running : w.looping = true → w.protocol = .raft n.protocol n.storage ∧ n.backlog = [] ∧
    n.protocol.nodeId = C.nodeId

def Deployment.Life (d : Deployment N B V) (i : Fin N) (w : World (ProtocolImpl V) B V) : Prop :=
  w = d.worlds i ∨ (i,w) ∈ d.past

structure Deployment.Follows (F : WireFormat B V) (M : Named N) (may : Fin N → ℕ → Prop)
    (d : Deployment N B V) (f : Fleet N (Pending V) V) : Prop where
  peers : ∀ i, Peers M i (d.setups i).peers
  named : ∀ i, ∃ incarnation, may i incarnation ∧ (d.setups i).nodeId = M.born i incarnation
  stands : ∀ i, Stands M (d.setups i) (d.worlds i) (f.nodes i)
  links : ∀ src dst, (d.links src dst).Sublist (wire F f.flight src dst)
  sound : ∀ i w, d.Life i w → w.Sound
  drained : ∀ i w, d.Life i w → ∀ x ∈ w.desk.drained, (i,x) ∈ f.emitted

section
variable [DecidableEq V] {F : WireFormat B V} {M : Named N} {may : Fin N → ℕ → Prop}
  {d : Deployment N B V} {f f₀ f' : Fleet N (Pending V) V} {i : Fin N} {C : Setup}
  {w w' : World (ProtocolImpl V) B V}
  {j' : Journal V}

omit [DecidableEq V] in
theorem Peers.total {peers : List NodeId} (h : Peers M i peers) : peers.length + 1 = N := by
  have hlen := h.length_eq
  rw [List.length_map,List.length_map] at hlen
  have herase : ((List.finRange N).filter fun j => j ≠ i).length = N - 1 := by
    have hlength := List.length_erase_of_mem (List.mem_finRange i)
    rw [(List.nodup_finRange N).erase_eq_filter,List.length_finRange] at hlength
    rw [← hlength]
    congr 1
    refine List.filter_congr fun j _ => ?_
    by_cases hj : j = i
    · simp [hj]
    · simp [hj]
  have hpos := i.pos
  omega

omit [DecidableEq V] in
/-- Who takes part in what after member `i` went on as `w'`. -/
theorem Deployment.Life.goOn {k : Fin N} (h : (d.goOn M i w').Life k w) :
    (k = i ∧ w = w') ∨ d.Life k w := by
  rcases h with rfl | hpast
  · by_cases hk : k = i
    · subst hk
      exact Or.inl ⟨rfl,Function.update_self ..⟩
    · exact Or.inr (Or.inl (Function.update_of_ne hk ..))
  · exact Or.inr (Or.inr hpast)

omit [DecidableEq V] in
theorem Deployment.Follows.others (h : d.Follows F M may f) (hstands : Stands M (d.setups i) w' (f'.nodes i))
    (hnodes : ∀ k, k ≠ i → f'.nodes k = f.nodes k) (k : Fin N) :
    Stands M (d.setups k) ((d.goOn M i w').worlds k) (f'.nodes k) := by
  by_cases hk : k = i
  · subst hk
    simpa [Deployment.goOn] using hstands
  · rw [hnodes k hk]
    simpa [Deployment.goOn,hk] using h.stands k

omit [DecidableEq V] in
theorem Deployment.Follows.quiet (h : d.Follows F M may f) (hstands : Stands M (d.setups i) w' (f'.nodes i))
    (hnodes : ∀ k, k ≠ i → f'.nodes k = f.nodes k) (hflight : f'.flight = f.flight)
    (hemitted : f'.emitted = f.emitted) (hsent : w'.sent = (d.worlds i).sent)
    (hdrained : w'.desk.drained = (d.worlds i).desk.drained) (hsound : w'.Sound) :
    (d.goOn M i w').Follows F M may f' := by
  refine ⟨h.peers,h.named,h.others hstands hnodes,fun src dst => ?_,fun k w hw => ?_,fun k w hw => ?_⟩
  · simp only [Deployment.goOn,hsent,List.drop_length,posted,List.filterMap_nil,List.append_nil,
      ite_self,hflight]
    exact h.links src dst
  · rcases hw.goOn with ⟨rfl,rfl⟩ | hold
    · exact hsound
    · exact h.sound k w hold
  · rw [hemitted]
    rcases hw.goOn with ⟨rfl,rfl⟩ | hold
    · rw [hdrained]
      exact h.drained _ _ (Or.inl rfl)
    · exact h.drained k w hold

theorem Deployment.Follows.round (h : d.Follows F M may f)
    (hk : Keeps M f₀ f' i (d.setups i).nodeId j') (hnodes : f₀.nodes = f.nodes)
    (hemitted : f₀.emitted = f.emitted) {links : Fin N → Fin N → List B}
    (hlinks : ∀ src dst, (links src dst).Sublist (wire F f₀.flight src dst))
    {r : World (ProtocolImpl V) B V × Option Stop}
    (hr : Shadowed F (d.setups i) (d.worlds i) j' r) (hstart : r.1.started = true)
    (hsound : (World.carryOn r).Sound) :
    ({ d with links := links }.goOn M i (World.carryOn r)).Follows F M may f' := by
  have hcarry : (World.carryOn r).protocol = r.1.protocol ∧ (World.carryOn r).sent = r.1.sent ∧
      (World.carryOn r).desk.drained = r.1.desk.drained ∧ (World.carryOn r).started = true ∧
      ((World.carryOn r).looping = true → r.2 = none) := by
    obtain ⟨w₁,stop⟩ := r
    cases stop with
    | none => exact ⟨rfl,rfl,rfl,hstart,fun _ => rfl⟩
    | some stop =>
      refine ⟨rfl,rfl,rfl,hstart,fun hl => ?_⟩
      cases World.running _ hl
  obtain ⟨hprotocol,hsent,hdrained,hstarted,hnone⟩ := hcarry
  have hnode := hk.node
  have hstands : Stands M (d.setups i) (World.carryOn r) (f'.nodes i) := by
    rw [hnode]
    refine ⟨hprotocol ▸ hr.remains.storage,fun hno => ?_,fun hl => ?_⟩
    · cases hstarted.symm.trans hno
    · have hmirrors := hr.mirrors (hnone hl)
      exact ⟨hprotocol.trans hmirrors.protocol,hmirrors.backlog,hk.ident⟩
  have hothers : ∀ k, k ≠ i → f'.nodes k = f.nodes k := by
    intro k hki
    rw [hk.nodes,Function.update_of_ne hki,hnodes]
  have hgrow : ∀ x ∈ f.emitted, x ∈ f'.emitted := by
    intro x hx
    rw [hk.emitted,hemitted]
    exact List.mem_append_left _ hx
  -- what was sent since the round began
  have hfresh : (World.carryOn r).sent.drop (d.worlds i).sent.length <+: onWire F (d.setups i) j'.sent := by
    have hprefix := hr.remains.sent.drop (d.worlds i).sent.length
    rwa [List.drop_left,← hsent] at hprefix
  refine ⟨h.peers,h.named,h.others hstands hothers,fun src dst => ?_,fun k w hw => ?_,fun k w hw x hx => ?_⟩
  · rw [hk.flight,wire_append]
    simp only [Deployment.goOn]
    by_cases hsrc : src = i
    · subst hsrc
      rw [if_pos rfl]
      exact (hlinks src dst).append ((posted_grows dst hfresh).trans (posted_sublist (h.peers src) dst _))
    · rw [if_neg hsrc]
      exact (hlinks src dst).trans (List.sublist_append_left _ _)
  · rcases hw.goOn with ⟨rfl,rfl⟩ | hold
    · exact hsound
    · exact h.sound k w hold
  · rcases hw.goOn with ⟨rfl,rfl⟩ | hold
    · rw [hdrained] at hx
      rcases List.mem_append.mp (hr.remains.drained.subset hx) with hx | hx
      · exact hgrow _ (h.drained _ _ (Or.inl rfl) x hx)
      · rw [hk.emitted]
        exact List.mem_append_right _ (List.mem_map_of_mem hx)
    · exact hgrow _ (h.drained k w hold x hx)

omit [DecidableEq V] in
/-- A call is no more than an entry in the queue. -/
theorem World.propose_frame (w : World (ProtocolImpl V) B V) (p : Pending V) :
    (w.propose p).started = w.started ∧ (w.propose p).protocol = w.protocol ∧
      (w.propose p).sent = w.sent ∧ (w.propose p).desk.drained = w.desk.drained ∧
      (w.propose p).exit = w.exit := by
  unfold World.propose
  simp only
  split
  · exact ⟨rfl,rfl,rfl,rfl,rfl⟩
  · split
    · exact ⟨rfl,rfl,rfl,rfl,rfl⟩
    · exact ⟨rfl,rfl,rfl,rfl,rfl⟩

omit [DecidableEq V] in
theorem Stands.same {n : RaftNode (Pending V) V} (h : Stands M C w n)
    (hstart : w'.started = w.started) (hp : w'.protocol = w.protocol)
    (he : w'.exit = none → w.exit = none) : Stands M C w' n := by
  refine ⟨hp ▸ h.disk,fun hno => ?_,fun hl => ?_⟩
  · rw [hp]
    exact h.fresh (hstart.symm.trans hno)
  · rw [hp]
    obtain ⟨hrun,hnone⟩ := (World.looping_iff w').mp hl
    exact h.running ((World.looping_iff w).mpr ⟨hstart.symm.trans hrun,he hnone⟩)

theorem Stands.mirrors (h : Stands M C w (f.nodes i)) (hl : w.looping = true) :
    Mirrors F C w w ⟨f.nodes i,[],[]⟩ [] := by
  obtain ⟨hp,hback,_⟩ := h.running hl
  exact ⟨hp,hback,(List.append_nil _).symm,(List.append_nil _).symm⟩

omit [DecidableEq V] in
theorem ProtocolImpl.recover_raft (now : Outside) (p : RaftProtocol (Pending V)) (st : RaftStorage V) :
    (.raft p st : ProtocolImpl V).recover now =
      match now.load with
      | some e => (.raft p st,some e)
      | none => (.raft (p.recover .pending now.raft st) st,none) := by
  unfold ProtocolImpl.recover
  cases now.load with
  | none => rfl
  | some e => rfl

/-- `run` boots the process, unless it cannot load. -/
theorem Stands.recover {n : RaftNode (Pending V) V} (h : Stands M C w n) (hstart : w.started = false)
    {now : Outside} {P : ProtocolImpl V} {error : Option StorageError}
    (hp : (protocolImpl F).recover now w.protocol = (P,error)) :
    (error = none → P = .raft (RaftNode.boot .pending now.raft C.nodeId N M.config n.storage).protocol
      n.storage) ∧ ∃ p, P = .raft p n.storage := by
  obtain ⟨env,hproto⟩ := h.fresh hstart
  have hrecover : (protocolImpl F).recover now w.protocol = _ :=
    (congrArg (ProtocolImpl.recover now) hproto).trans (ProtocolImpl.recover_raft now _ _)
  rw [hrecover] at hp
  cases hload : now.load with
  | none =>
    rw [hload] at hp
    cases hp
    -- when the node was made does not matter, only when it runs
    exact ⟨fun _ => rfl,_,rfl⟩
  | some e =>
    rw [hload] at hp
    cases hp
    refine ⟨fun hno => ?_,_,rfl⟩
    cases hno

variable {env : Env}

theorem Deployment.Follows.node (h : d.Follows F M may f) (hsail : Sails M may (.init .pending M env) f)
    {a : Action Outside B V} (ha : a.brings = false)
    (hs : (d.worlds i).step (protocolImpl F) (d.setups i) a = some w') :
    ∃ f', Sails M may f f' ∧ (d.goOn M i w').Follows F M may f' := by
  have hsound : w'.Sound := (h.sound i _ (Or.inl rfl)).step hs
  -- the fleet does not move
  have hstay : w'.started = (d.worlds i).started → w'.protocol = (d.worlds i).protocol →
      w'.sent = (d.worlds i).sent → w'.desk.drained = (d.worlds i).desk.drained →
      (w'.exit = none → (d.worlds i).exit = none) →
      ∃ f', Sails M may f f' ∧ (d.goOn M i w').Follows F M may f' := by
    intro hstart hp hsent hdrained hexit
    exact ⟨f,.start,h.quiet ((h.stands i).same hstart hp hexit) (fun _ _ => rfl) rfl rfl hsent
      hdrained hsound⟩
  -- the loop handles a submission or a tick
  have hround : ∀ {r : World (ProtocolImpl V) B V × Option Stop} {input : Raft.Input (Pending V)}
      {j' : Journal V}, (d.worlds i).looping = true → w' = World.carryOn r → r.1.started = true →
      (∀ sender msg, input ≠ .message sender msg) →
      Journal.Takes ⟨f.nodes i,[],[]⟩ input j' →
      Shadowed F (d.setups i) (d.worlds i) j' r →
      ∃ f', Sails M may f f' ∧ (d.goOn M i w').Follows F M may f' := by
    rintro r input j' hl rfl hstart hinput htakes hshadow
    obtain ⟨f',hsail',hkeeps⟩ := Sails.act hsail ((h.stands i).running hl).2.2 hinput htakes
    exact ⟨f',hsail',h.round hkeeps rfl rfl h.links hshadow hstart hsound⟩
  cases World.step_moves hs with
  | call nonce value =>
    obtain ⟨hstart,hp,hsent,hdrained,hexit⟩ := World.propose_frame (d.worlds i) ⟨nonce,value⟩
    exact hstay hstart hp hsent hdrained fun hnone => hexit.symm.trans hnone
  | clone | dropHandle | disconnected | took | deaf => exact hstay rfl rfl rfl rfl fun hnone => hnone
  | shutdown | noQuorum | dropNode =>
    refine hstay rfl rfl rfl rfl fun hnone => ?_
    cases hnone
  | run now P hstart hrun hp =>
    obtain ⟨hboot,hdisk⟩ := (h.stands i).recover hstart hp
    obtain ⟨incarnation,hmay,hid⟩ := h.named i
    let f' : Fleet N (Pending V) V :=
      { f with nodes := Function.update f.nodes i (f.reborn .pending M i now.raft incarnation) }
    have hnode : f'.nodes i = f.reborn .pending M i now.raft incarnation := Function.update_self ..
    have horderly : Orderly may f (.restart i now.raft incarnation) := by
      refine ⟨trivial,trivial,fun _ _ _ heq => ?_⟩
      cases heq
      exact hmay
    refine ⟨f',.next .start horderly rfl,?_⟩
    refine h.quiet ?_ (fun k hk => Function.update_of_ne hk ..) rfl rfl rfl rfl hsound
    rw [hnode]
    refine ⟨hdisk,fun hno => ?_,fun _ => ⟨?_,rfl,?_⟩⟩
    · cases hno
    · rw [hid] at hboot
      exact hboot rfl
    · rw [hid]
      exact (Raft.boot_facts .pending now.raft (M.born i incarnation) N M.config
        (f.nodes i).storage).1
  | unloaded now P e hstart hrun hp =>
    obtain ⟨_,hdisk⟩ := (h.stands i).recover hstart hp
    refine ⟨f,.start,h.quiet ⟨hdisk,fun hno => ?_,fun hl => ?_⟩ (fun _ _ => rfl) rfl rfl rfl rfl
      hsound⟩
    · cases hno
    · cases World.running _ hl
  | submission now chance s queue hl hq =>
    have hmirrors : Mirrors F (d.setups i) (d.worlds i) { d.worlds i with queue := queue }
        ⟨f.nodes i,[],[]⟩ [] := ((h.stands i).mirrors hl).same rfl rfl rfl
    obtain ⟨j',htakes,hshadow⟩ := hmirrors.submission now chance s
    have hserved := (World.finish_served (protocolImpl F) (d.setups i) now chance
      { d.worlds i with queue := queue, desk := (d.worlds i).desk.insert s }
      ((protocolImpl F).propose now (d.worlds i).protocol s.pending)).publishState
        (G := protocolImpl F) (C := d.setups i)
    exact hround hl rfl (hserved.started.trans ((World.looping_iff _).mp hl).1) (by simp) htakes hshadow
  | receive envs chance data hl => cases ha
  | tick now chance hl =>
    obtain ⟨j',htakes,hshadow⟩ := ((h.stands i).mirrors hl).retries now chance
    have hserved := (World.finish_served (protocolImpl F) (d.setups i) now chance (d.worlds i)
      ((protocolImpl F).onTick now (d.worlds i).protocol)).publishState
        (G := protocolImpl F) (C := d.setups i)
    exact hround hl rfl (hserved.started.trans ((World.looping_iff _).mp hl).1) (by simp) htakes hshadow

omit [DecidableEq V] in
/-- What is left on the links when the oldest packet of one is handed over. -/
theorem Deployment.Follows.unlink (h : d.Follows F M may f) {src dst : Fin N} {rest : List B}
    {before after : List (Daccord.Packet N (Message (Pending V)))}
    {pkt : Daccord.Packet N (Message (Pending V))} (hflight : f.flight = before ++ pkt :: after)
    (hsrc : pkt.src = src) (hdst : pkt.dst = dst) (hrest : rest.Sublist (wire F after src dst))
    (s t : Fin N) : (relink d.links src dst rest s t).Sublist
      (wire F (before.filter (fun x => !between pkt.src pkt.dst x) ++ after) s t) := by
  rw [wire_append,hsrc,hdst]
  by_cases hst : s = src ∧ t = dst
  · obtain ⟨rfl,rfl⟩ := hst
    simp only [relink,and_self,if_true]
    exact hrest.trans (List.sublist_append_right _ _)
  · have hlinks := h.links s t
    have hskip : wire F (pkt :: after) s t = wire F after s t := by
      refine List.filterMap_cons_none (if_neg fun hpkt => hst ?_)
      exact ⟨hpkt.1.symm.trans hsrc,hpkt.2.symm.trans hdst⟩
    rw [hflight,wire_append,hskip] at hlinks
    rw [relink,if_neg hst,wire_others hst]
    exact hlinks

theorem Deployment.Follows.deliver (h : d.Follows F M may f) (hF : F.Faithful)
    (hsail : Sails M may (.init .pending M env) f) {src dst : Fin N} {bytes : B} {rest : List B}
    {envs : ℕ → Outside} {chance : Chance} (hlink : d.links src dst = bytes :: rest)
    (hcounts : d.CountsOnce F (.deliver src dst envs chance))
    (hs : (d.worlds dst).step (protocolImpl F) (d.setups dst) (.receive (some bytes) envs chance) =
      some w') :
    ∃ f', Sails M may f f' ∧
      ({ d with links := relink d.links src dst rest }.goOn M dst w').Follows F M may f' := by
  have hsound : w'.Sound := (h.sound dst _ (Or.inl rfl)).step hs
  have hwire := h.links src dst
  rw [hlink] at hwire
  obtain ⟨before,pkt,after,hflight,hpkt,hrest⟩ := wire_split hwire
  obtain ⟨hsrc,hdst,hbytes⟩ := onLink_some hpkt
  have hread := hF _ _ _ hbytes
  cases World.step_moves hs with
  | receive _ _ _ hl =>
    subst hdst
    obtain ⟨hp,hback,hid⟩ := (h.stands pkt.dst).running hl
    have honce : (f.nodes pkt.dst).protocol.CountsOnce pkt.msg.sender pkt.msg.variant := by
      simpa [Deployment.CountsOnce,hlink,hread,hp,hl] using hcounts
    have hmsg : (protocolImpl F).handleWireMessage (envs 0) (d.worlds pkt.dst).protocol
        pkt.msg.sender (.raft pkt.msg.variant) = ProtocolImpl.ofRaft (f.nodes pkt.dst).storage
          ((f.nodes pkt.dst).protocol.handle (envs 0).raft
            (.message pkt.msg.sender pkt.msg.variant)) := by
      rw [hp]
      rfl
    obtain ⟨j',htakes,hshadow⟩ := ((h.stands pkt.dst).mirrors hl).message envs chance
      pkt.msg.sender hmsg
    have hhandle : (d.worlds pkt.dst).handleIncomingBytes (protocolImpl F) (d.setups pkt.dst) envs
        chance bytes = World.publishState (protocolImpl F) (d.setups pkt.dst)
          ((d.worlds pkt.dst).handleMessage (protocolImpl F) (d.setups pkt.dst) envs chance
            pkt.msg.sender (.raft pkt.msg.variant)) := by
      rw [World.handleIncomingBytes]
      rw [show (protocolImpl F).fromBytes bytes = _ from hread]
    have hserved := World.handleIncomingBytes_served (protocolImpl F) (d.setups pkt.dst) envs chance
      (d.worlds pkt.dst) bytes
    obtain ⟨f',hsail',hkeeps⟩ := Sails.deliver hsail hflight honce hid htakes
    refine ⟨f',hsail',?_⟩
    refine h.round hkeeps rfl rfl (h.unlink hflight hsrc rfl hrest) ?_
      (hserved.started.trans ((World.looping_iff _).mp hl).1) hsound
    rw [hhandle]
    exact hshadow.publishState

omit [DecidableEq V] in
theorem Deployment.Follows.lose (h : d.Follows F M may f) (src dst : Fin N) (pos : ℕ) :
    { d with links := relink d.links src dst ((d.links src dst).eraseIdx pos) }.Follows F M may f := by
  refine ⟨h.peers,h.named,h.stands,fun s t => ?_,h.sound,h.drained⟩
  by_cases hst : s = src ∧ t = dst
  · obtain ⟨rfl,rfl⟩ := hst
    simp only [relink,and_self,if_true]
    exact (List.eraseIdx_sublist _ _).trans (h.links s t)
  · simp only [relink,if_neg hst]
    exact h.links s t

omit [DecidableEq V] in
theorem Stands.made {n : RaftNode (Pending V) V} (hP : Peers M i C.peers) (env : Env)
    {storage : RaftStorage V} (hn : n.storage = storage) :
    Stands M C (raftNode C M.config env storage : World (ProtocolImpl V) B V) n := by
  have hproto : (raftNode C M.config env storage : World (ProtocolImpl V) B V).protocol =
      .raft (.new env C.nodeId N M.config) n.storage := by
    rw [hn]
    exact congrArg (fun total => ProtocolImpl.raft (.new env C.nodeId total M.config) storage) hP.total
  refine ⟨⟨_,hproto⟩,fun _ => ⟨env,hproto⟩,fun hl => ?_⟩
  cases hl

omit [DecidableEq V] in
theorem Deployment.Follows.restart (h : d.Follows F M may f) {p : RaftProtocol (Pending V)}
    {storage : RaftStorage V} (hp : (d.worlds i).protocol = .raft p storage) {peers : List NodeId}
    (hP : Peers M i peers) {incarnation : ℕ} (hmay : may i incarnation) (now : Env) :
    Deployment.Follows F M may { d with
      setups := Function.update d.setups i ⟨M.born i incarnation,.raft,peers⟩
      worlds := Function.update d.worlds i
        (raftNode ⟨M.born i incarnation,.raft,peers⟩ M.config now storage)
      past := d.past ++ [(i,d.worlds i)] } f := by
  have hstorage : (f.nodes i).storage = storage := by
    obtain ⟨q,hq⟩ := (h.stands i).disk
    rw [hp] at hq
    cases hq
    rfl
  -- the new node, or one that was there before
  have hlives : ∀ k w, Deployment.Life { d with
      setups := Function.update d.setups i ⟨M.born i incarnation,.raft,peers⟩
      worlds := Function.update d.worlds i
        (raftNode ⟨M.born i incarnation,.raft,peers⟩ M.config now storage)
      past := d.past ++ [(i,d.worlds i)] } k w →
      w = raftNode ⟨M.born i incarnation,.raft,peers⟩ M.config now storage ∨ d.Life k w := by
    rintro k w (rfl | hpast)
    · by_cases hk : k = i
      · subst hk
        exact Or.inl (Function.update_self ..)
      · exact Or.inr (Or.inl (Function.update_of_ne hk ..))
    · rcases List.mem_append.mp hpast with hpast | hpast
      · exact Or.inr (Or.inr hpast)
      · cases List.mem_singleton.mp hpast
        exact Or.inr (Or.inl rfl)
  refine ⟨fun k => ?_,fun k => ?_,fun k => ?_,h.links,fun k w hw => ?_,fun k w hw => ?_⟩
  · by_cases hk : k = i
    · subst hk
      simpa using hP
    · simpa [hk] using h.peers k
  · by_cases hk : k = i
    · subst hk
      exact ⟨incarnation,hmay,by simp⟩
    · simpa [hk] using h.named k
  · by_cases hk : k = i
    · subst hk
      simpa using Stands.made (C := ⟨M.born k incarnation,.raft,peers⟩) hP now hstorage
    · simpa [hk] using h.stands k
  · rcases hlives k w hw with rfl | hold
    · exact World.new_sound _ _
    · exact h.sound k w hold
  · rcases hlives k w hw with rfl | hold
    · exact List.forall_mem_nil _
    · exact h.drained k w hold

theorem Deployment.Follows.step (h : d.Follows F M may f) (hF : F.Faithful)
    (hsail : Sails M may (.init .pending M env) f) {e : Deployment.Event N B V} {d' : Deployment N B V}
    (hcounts : d.CountsOnce F e) (hmay : e.Permitted may) (hs : d.step F M e = some d') :
    ∃ f', Sails M may f f' ∧ d'.Follows F M may f' := by
  cases e with
  | node i a =>
    simp only [Deployment.step] at hs
    split at hs
    · cases hs
    · rename_i ha
      obtain ⟨w',hw,rfl⟩ := Option.map_eq_some_iff.mp hs
      exact h.node hsail (by simpa using ha) hw
  | deliver src dst envs chance =>
    simp only [Deployment.step] at hs
    split at hs
    · cases hs
    · rename_i bytes rest hlink
      obtain ⟨w',hw,rfl⟩ := Option.map_eq_some_iff.mp hs
      exact h.deliver hF hsail hlink hcounts hw
  | lose src dst pos =>
    cases hs
    exact ⟨f,.start,h.lose src dst pos⟩
  | restart i incarnation peers now =>
    simp only [Deployment.step] at hs
    split at hs
    · rename_i p storage hp
      split at hs
      · rename_i hdown
        cases hs
        exact ⟨f,.start,h.restart hp hdown.2 hmay now⟩
      · cases hs
    · cases hs

/-- A run whose steps count nobody twice is a run of the fleet. -/
theorem Deployment.sails (hF : F.Faithful) {peers : Fin N → List NodeId}
    (hpeers : ∀ i, Peers M i (peers i)) (hborn : ∀ i, may i (M.ids i).incarnation)
    {ok : Deployment N B V → Deployment.Event N B V → Prop}
    (hok : ∀ d e f, Sails M may (.init .pending M env) f → d.Follows F M may f → ok d e →
      d.CountsOnce F e ∧ e.Permitted may)
    (h : Runs.Reaches (Deployment.step F M) ok (.init M peers env) d) :
    ∃ f, Sails M may (.init .pending M env) f ∧ d.Follows F M may f := by
  refine h.invariant (fun d => ∃ f, Sails M may (.init .pending M env) f ∧ d.Follows F M may f)
    ⟨_,.start,?_⟩ fun d e d' _ hrun he hs => ?_
  · refine ⟨hpeers,fun i => ⟨(M.ids i).incarnation,hborn i,rfl⟩,fun i => .made (hpeers i) env rfl,
      fun _ _ => List.nil_sublist _,fun i w hw => ?_,fun i w hw => ?_⟩
    · rcases hw with rfl | hno
      · exact World.new_sound _ _
      · cases hno
    · rcases hw with rfl | hno
      · exact List.forall_mem_nil _
      · cases hno
  · obtain ⟨f,hsail,hd⟩ := hrun
    obtain ⟨hcounts,hmay⟩ := hok d e f hsail hd he
    obtain ⟨f',hsail',hd'⟩ := hd.step hF hsail hcounts hmay hs
    exact ⟨f',hsail.trans hsail',hd'⟩

/-- What a node has shown to its users: the decisions its calls have returned and
those the decision receiver has got or can get. -/
def World.shown (w : World (ProtocolImpl V) B V) : List (Decision V) :=
  w.desk.granted ++ (w.desk.taken ++ w.desk.channel)

omit [DecidableEq V] in
theorem World.Sound.shown (h : w.Sound) {x : Decision V} (hx : x ∈ w.shown) :
    ∃ y ∈ w.desk.drained, x = reveal y := by
  have hmem : x ∈ w.desk.drained.map reveal := by
    rcases List.mem_append.mp hx with hx | hx
    · exact h.ok.desk.inOrder.subset hx
    · exact h.ok.desk.delivered.subset hx
  obtain ⟨y,hy,rfl⟩ := List.mem_map.mp hmem
  exact ⟨y,hy,rfl⟩

omit [DecidableEq V] in
/-- What is shown is decided in the replicated log behind the members. -/
theorem Deployment.Follows.shown (hd : d.Follows F M may f)
    (hsail : Sails M may (.init .pending M env) f) :
    ∃ a, (f.map Pending.value id).Tallied M a ∧
      ∀ i w, d.Life i w → ∀ x ∈ w.shown, Raft.Decides a i x := by
  obtain ⟨a,ha⟩ := Fleet.tallied_reaches (hsail.weaken fun _ _ hl => ⟨hl.queued,hl.counts⟩)
  refine ⟨a,ha,fun i w hw x hx => ?_⟩
  obtain ⟨y,hy,rfl⟩ := (hd.sound i w hw).shown hx
  exact ha.ok.emitted trivial _ (List.mem_map_of_mem (hd.drained i w hw y hy))

omit [DecidableEq V] in
theorem Deployment.Follows.agree (hd : d.Follows F M may f)
    (hsail : Sails M may (.init .pending M env) f) {i j : Fin N} (hw : d.Life i w)
    (hw' : d.Life j w') {x y : Decision V} (hx : x ∈ w.shown) (hy : y ∈ w'.shown)
    (hslot : x.slot = y.slot) : x.value = y.value := by
  obtain ⟨a,ha,hshown⟩ := hd.shown hsail
  exact (hshown i w hw x hx).agree ha.ok.sound trivial (hshown j w' hw' y hy) hslot

/-- A majority of the members has the value in its slot of the log on disk. -/
def Deployment.Stored (d : Deployment N B V) (x : Decision V) : Prop :=
  ∃ Q : Finset (Fin N), Majority Q ∧ ∀ k ∈ Q, ∃ p storage e,
    (d.worlds k).protocol = .raft p storage ∧ storage.log[x.slot]? = some e ∧ e.value = x.value

omit [DecidableEq V] in
theorem Deployment.Follows.stored (hd : d.Follows F M may f)
    (hsail : Sails M may (.init .pending M env) f) (hw : d.Life i w) {x : Decision V}
    (hx : x ∈ w.shown) : d.Stored x := by
  obtain ⟨a,ha,hshown⟩ := hd.shown hsail
  obtain ⟨hset,e,he,hvalue⟩ := hshown i w hw x hx
  obtain ⟨Q,hQ,hheld⟩ := (ha.ok.sound.durable trivial).settled_held ha.ok.sound.base hset
    (Nat.lt_succ_self x.slot)
  refine ⟨Q,hQ,fun k hk => ?_⟩
  obtain ⟨p,hp⟩ := (hd.stands k).disk
  refine ⟨p,_,e,hp,?_,hvalue⟩
  -- the disk of a node holds its log, which is that of the replicated log
  have hnode := ha.ok.nodes k
  have hlog : ((f.map Pending.value id).nodes k).storage.log = a.log k := by
    have hdisk := hnode.synced.holds.log
    rw [Raft.Adapter.exact_strip] at hdisk
    exact hdisk.trans hnode.tracks.log
  have hsame : ((f.map Pending.value id).nodes k).storage.log = (f.nodes k).storage.log := by
    have hid : Raft.LogEntry.map (id : V → V) = id := rfl
    change (f.nodes k).storage.log.map (Raft.LogEntry.map id) = _
    rw [hid,List.map_id]
  rw [← hsame,hlog,hheld k hk,he]

end

/-! ### A run -/

theorem plain_faithful : (plain : WireFormat _ V).Faithful := by
  intro id msg bytes h
  exact h.symm

def bornOnce (i : Fin 3) : NodeId := ⟨["a","b","c"].getD i "",1⟩

def threesome : Named 3 where
  ids := bornOnce
  distinct := by decide
  config := ⟨50,150,300⟩
  names := by decide

def theOthers (i : Fin 3) : List NodeId := ((List.finRange 3).filter fun j => j ≠ i).map bornOnce

/-- `b` elects `a`, which takes 7 and answers the call when `b` has stored it. The next
heartbeat tells `b`; then `a` is killed and starts again. -/
def lifeEvents (incarnation : ℕ) : List (Deployment.Event 3 (NodeId × WireVariant (Pending ℕ)) ℕ) :=
  let hand src dst now := Deployment.Event.deliver src dst (fun _ => onTime now) .still
  [.node 0 (.run (onTime 0)),.node 1 (.run (onTime 0)),.node 2 (.run (onTime 0)),
    .node 0 (.tick (onTime 1000) .still),hand 0 1 1001,hand 1 0 1002,
    .node 0 (.call 1 7),.node 0 (.submission (onTime 1003) .still),
    hand 0 1 1004,hand 0 1 1005,hand 1 0 1006,hand 1 0 1007,
    .node 0 (.tick (onTime 1100) .still),hand 0 1 1101,
    .node 0 .dropNode,.restart 0 incarnation (theOthers 0) ⟨1200,0⟩,.node 0 (.run (onTime 1200))]

def secondLife : Deployment 3 (NodeId × WireVariant (Pending ℕ)) ℕ :=
  Runs.after (Deployment.step plain threesome) (Deployment.CountsOnce plain)
    (.init threesome theOthers ⟨0,0⟩) (lifeEvents 2) (by decide +kernel)

section
variable [DecidableEq V]

theorem Deployment.follows {F : WireFormat B V} (hF : F.Faithful) {M : Named N}
    {peers : Fin N → List NodeId} (hpeers : ∀ i, Peers M i (peers i)) {env : Env}
    {d : Deployment N B V}
    (h : Runs.Reaches (Deployment.step F M) (Deployment.CountsOnce F) (.init M peers env) d) :
    ∃ f, Sails M (fun _ _ => True) (.init .pending M env) f ∧ d.Follows F M (fun _ _ => True) f := by
  refine Deployment.sails hF hpeers (fun _ => trivial) (fun d e f _ _ he => ⟨he,?_⟩) h
  cases e with
  | restart i incarnation peers now => trivial
  | _ => trivial

/-- Two calls that return, or two deliveries to decision receivers, never tell different
values for one slot, on whatever members and in whatever lives of them. -/
theorem deployment_agrees (F : WireFormat B V) (hF : F.Faithful) (M : Named N)
    (peers : Fin N → List NodeId) (hpeers : ∀ i, Peers M i (peers i)) (env : Env)
    (d : Deployment N B V)
    (h : Runs.Reaches (Deployment.step F M) (Deployment.CountsOnce F) (.init M peers env) d)
    (i j : Fin N) (w w' : World (ProtocolImpl V) B V) (hw : d.Life i w) (hw' : d.Life j w')
    (x y : Decision V) (hx : x ∈ w.shown) (hy : y ∈ w'.shown) (hslot : x.slot = y.slot) :
    x.value = y.value := by
  obtain ⟨f,hsail,hd⟩ := Deployment.follows hF hpeers h
  exact hd.agree hsail hw hw' hx hy hslot

theorem deployment_agrees_secondLife :
    ⟨0,7⟩ ∈ (secondLife.worlds 1).shown ∧
    ∀ i w, secondLife.Life i w → ∀ x ∈ w.shown, x.slot = 0 → 7 = x.value :=
  ⟨by decide +kernel,fun i w hw x hx hslot => deployment_agrees plain plain_faithful threesome
    theOthers (by decide) ⟨0,0⟩ secondLife (Runs.after_reaches .start (by decide +kernel)) 1 i
    (secondLife.worlds 1) w (Or.inl rfl) hw ⟨0,7⟩ x (by decide +kernel) hx hslot.symm⟩

/-- What a call has returned or a decision receiver was given is from then on in the log
on the disks of a majority of the members. -/
theorem deployment_durable (F : WireFormat B V) (hF : F.Faithful) (M : Named N)
    (peers : Fin N → List NodeId) (hpeers : ∀ i, Peers M i (peers i)) (env : Env)
    (d : Deployment N B V)
    (h : Runs.Reaches (Deployment.step F M) (Deployment.CountsOnce F) (.init M peers env) d)
    (i : Fin N) (w : World (ProtocolImpl V) B V) (hw : d.Life i w) (x : Decision V)
    (hx : x ∈ w.shown) : d.Stored x := by
  obtain ⟨f,hsail,hd⟩ := Deployment.follows hF hpeers h
  exact hd.stored hsail hw hx

theorem deployment_durable_secondLife :
    ⟨0,7⟩ ∈ (secondLife.worlds 1).shown ∧ secondLife.Stored ⟨0,7⟩ :=
  ⟨by decide +kernel,deployment_durable plain plain_faithful threesome theOthers (by decide) ⟨0,0⟩
    secondLife (Runs.after_reaches .start (by decide +kernel)) 1 (secondLife.worlds 1) (Or.inl rfl)
    ⟨0,7⟩ (by decide +kernel)⟩

/-- Members come back under the identity they had: `start_node_tcp` and
`start_node_uds` always take incarnation 0. -/
def Deployment.SameIds (M : Named N) (_ : Deployment N B V) (e : Deployment.Event N B V) : Prop :=
  e.Permitted M.Keeps

instance (M : Named N) (d : Deployment N B V) (e : Deployment.Event N B V) :
    Decidable (d.SameIds M e) :=
  match e with
  | .restart i incarnation _ _ => inferInstanceAs (Decidable (incarnation = (M.ids i).incarnation))
  | .node .. => isTrue trivial
  | .deliver .. => isTrue trivial
  | .lose .. => isTrue trivial

omit [DecidableEq V] in
theorem Deployment.Follows.countsOnce {F : WireFormat B V} (hF : F.Faithful) {M : Named N}
    {may : Fin N → ℕ → Prop} {d : Deployment N B V} {f : Fleet N (Pending V) V}
    (hd : d.Follows F M may f) (hf : f.Steady M) (e : Deployment.Event N B V) : d.CountsOnce F e := by
  cases e with
  | deliver src dst envs chance =>
    cases hlink : d.links src dst with
    | nil => simp [Deployment.CountsOnce,hlink]
    | cons bytes rest =>
      have hwire := hd.links src dst
      rw [hlink] at hwire
      obtain ⟨before,pkt,after,hflight,hpkt,_⟩ := wire_split hwire
      obtain ⟨hsrc,_,hbytes⟩ := onLink_some hpkt
      have hsender := hf.senders pkt (by simp [hflight])
      obtain ⟨p,hp⟩ := (hd.stands dst).disk
      simp only [Deployment.CountsOnce,hlink,List.head?_cons,Option.bind_some,hF _ _ _ hbytes,hp]
      intro hlooping
      have hrunning := ((hd.stands dst).running hlooping).1
      rw [hp] at hrunning
      cases hrunning
      rw [hsender]
      exact hf.countsOnce pkt.msg.variant
  | _ => trivial

/-- In a cluster whose members keep their identities no step makes a leader count a member
twice. Nobody is shown two values for one slot, and what anybody is shown is stored by a
majority for ever after. -/
theorem same_ids_consistent (F : WireFormat B V) (hF : F.Faithful) (M : Named N)
    (peers : Fin N → List NodeId) (hpeers : ∀ i, Peers M i (peers i)) (env : Env)
    (d : Deployment N B V)
    (h : Runs.Reaches (Deployment.step F M) (Deployment.SameIds M) (.init M peers env) d) :
    (∀ e, d.CountsOnce F e) ∧ ∀ i w, d.Life i w → ∀ x ∈ w.shown,
      d.Stored x ∧ ∀ j w', d.Life j w' → ∀ y ∈ w'.shown, x.slot = y.slot → x.value = y.value := by
  have hsteady : ∀ f : Fleet N (Pending V) V, Sails M M.Keeps (.init .pending M env) f →
      f.Steady M := by
    intro f hsail
    refine hsail.invariant (Fleet.Steady M) (.init .pending M env) fun f l f' hr hf hl hs => ?_
    exact hf.step (Fleet.polling_reaches hr) hl.permitted hs
  have hborn : ∀ i, M.Keeps i (M.ids i).incarnation := fun _ => rfl
  obtain ⟨f,hsail,hd⟩ := Deployment.sails hF hpeers hborn
    (fun d e f hsail hd he => ⟨hd.countsOnce hF (hsteady f hsail) e,he⟩) h
  refine ⟨hd.countsOnce hF (hsteady f hsail),fun i w hw x hx => ⟨hd.stored hsail hw hx,?_⟩⟩
  exact fun j w' hw' y hy hslot => hd.agree hsail hw hw' hx hy hslot

def sameAgain : Deployment 3 (NodeId × WireVariant (Pending ℕ)) ℕ :=
  Runs.after (Deployment.step plain threesome) (Deployment.SameIds threesome)
    (.init threesome theOthers ⟨0,0⟩) (lifeEvents 1) (by decide +kernel)

theorem same_ids_consistent_sameAgain :
    ⟨0,7⟩ ∈ (sameAgain.worlds 1).shown ∧ (∀ e, sameAgain.CountsOnce plain e) ∧
    sameAgain.Stored ⟨0,7⟩ ∧
    ∀ j w, sameAgain.Life j w → ∀ y ∈ w.shown, 0 = y.slot → 7 = y.value := by
  have hshown : ⟨0,7⟩ ∈ (sameAgain.worlds 1).shown := by decide +kernel
  obtain ⟨honce,hrest⟩ := same_ids_consistent plain plain_faithful threesome theOthers (by decide)
    ⟨0,0⟩ sameAgain (Runs.after_reaches .start (by decide +kernel))
  exact ⟨hshown,honce,hrest 1 (sameAgain.worlds 1) (Or.inl rfl) ⟨0,7⟩ hshown⟩

end

end EventLoop
end Daccord
