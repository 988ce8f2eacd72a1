import Daccord.NodeLoop
import Daccord.RaftReplicas

/-! A Raft cluster as it is deployed: members that each run the event loop over a link
to every other one, with bytes on the links, storage that fails, tasks that are dropped,
and nodes that come back, under the same identity or another. What a round of a loop is
in `Fleet`. -/
namespace Daccord
namespace EventLoop

open Raft (RaftProtocol RaftStorage RaftNode Fleet Named Message Synced)

variable {N : ℕ} {B V : Type}

/-- What is sent under a format can be read back. -/
def WireFormat.Faithful (F : WireFormat B V) : Prop :=
  ∀ id msg bytes, F.toBytes id msg = some bytes → F.fromBytes bytes = some (id,msg)

/-- The peers of member `i` are the other members, each under some identity. -/
def Peers (M : Named N) (i : Fin N) (peers : List NodeId) : Prop :=
  (peers.map NodeId.name).Perm (((List.finRange N).filter fun j => j ≠ i).map fun j => (M.ids j).name)

instance (M : Named N) (i : Fin N) (peers : List NodeId) : Decidable (Peers M i peers) :=
  inferInstanceAs (Decidable (List.Perm _ _))

/-- `links src dst` holds the bytes between two members, `past` the nodes that were
replaced. -/
structure Deployment (N : ℕ) (B V : Type) where
  setups : Fin N → Setup
  worlds : Fin N → World (ProtocolImpl V) B V
  links : Fin N → Fin N → List B
  past : List (Fin N × World (ProtocolImpl V) B V)

def raftNode (C : Setup) (cfg : Raft.RaftConfig) (env : Env) (storage : RaftStorage V) :
    World (ProtocolImpl V) B V :=
  .new C (.raft (.new env C.nodeId (C.peers.length + 1) cfg) storage)

def Deployment.init (M : Named N) (peers : Fin N → List NodeId) (env : Env) : Deployment N B V where
  setups i := ⟨M.ids i,.raft,peers i⟩
  worlds i := raftNode ⟨M.ids i,.raft,peers i⟩ M.config env .new
  links _ _ := []
  past := []

inductive Deployment.Event (N : ℕ) (B V : Type)
  | node (i : Fin N) (a : Action Outside B V)
  | deliver (src dst : Fin N) (envs : ℕ → Outside) (chance : Chance)
  | lose (src dst : Fin N) (pos : ℕ)
  | restart (i : Fin N) (incarnation : ℕ) (peers : List NodeId) (env : Env)

def posted (M : Named N) (dst : Fin N) (packets : List (NodeId × B)) : List B :=
  packets.filterMap fun x => if x.1.name = (M.ids dst).name then some x.2 else none

def relink (links : Fin N → Fin N → List B) (src dst : Fin N) (bytes : List B) :
    Fin N → Fin N → List B :=
  fun s t => if s = src ∧ t = dst then bytes else links s t

def Deployment.goOn (M : Named N) (d : Deployment N B V) (i : Fin N) (w : World (ProtocolImpl V) B V) :
    Deployment N B V :=
  { d with
    worlds := Function.update d.worlds i w
    links := fun s t =>
      if s = i then d.links s t ++ posted M t (w.sent.drop (d.worlds i).sent.length) else d.links s t }

def Action.brings : Action Outside B V → Bool
  | .receive (some _) _ _ => true
  | _ => false

def Deployment.step [DecidableEq V] (F : WireFormat B V) (M : Named N) (d : Deployment N B V) :
    Deployment.Event N B V → Option (Deployment N B V)
  | .node i a =>
    if a.brings then none
    else ((d.worlds i).step (protocolImpl F) (d.setups i) a).map (d.goOn M i)
  | .deliver src dst envs chance =>
    match d.links src dst with
    | [] => none
    | bytes :: rest =>
      ((d.worlds dst).step (protocolImpl F) (d.setups dst) (.receive (some bytes) envs chance)).map
        ({ d with links := relink d.links src dst rest }.goOn M dst)
  | .lose src dst pos => some { d with links := relink d.links src dst ((d.links src dst).eraseIdx pos) }
  | .restart i incarnation peers env =>
    match (d.worlds i).protocol with
    | .raft _ storage =>
      if (d.worlds i).exit.isSome ∧ Peers M i peers then
        let C : Setup := ⟨M.born i incarnation,.raft,peers⟩
        some { d with
          setups := Function.update d.setups i C
          worlds := Function.update d.worlds i (raftNode C M.config env storage)
          past := d.past ++ [(i,d.worlds i)] }
      else none
    | .paxos _ _ => none

def Deployment.CountsOnce (F : WireFormat B V) (d : Deployment N B V) :
    Deployment.Event N B V → Prop
  | .deliver src dst _ _ =>
    match (d.links src dst).head?.bind F.fromBytes, (d.worlds dst).protocol with
    | some (sender,.raft msg), .raft p _ => (d.worlds dst).looping = true → p.CountsOnce sender msg
    | _, _ => True
  | _ => True

instance (F : WireFormat B V) (d : Deployment N B V) (e : Deployment.Event N B V) :
    Decidable (d.CountsOnce F e) :=
  match e with
  | .deliver src dst _ _ =>
    match h : (d.links src dst).head?.bind F.fromBytes, h' : (d.worlds dst).protocol with
    | some (sender,.raft msg), .raft p _ =>
      decidable_of_iff ((d.worlds dst).looping = true → p.CountsOnce sender msg)
        (by simp [Deployment.CountsOnce,h,h'])
    | none, _ => isTrue (by simp [Deployment.CountsOnce,h])
    | some (_,.paxos _), _ => isTrue (by simp [Deployment.CountsOnce,h])
    | some (_,.raft _), .paxos _ _ => isTrue (by simp [Deployment.CountsOnce,h,h'])
  | .node .. => isTrue trivial
  | .lose .. => isTrue trivial
  | .restart .. => isTrue trivial

/-- Members come back only as `may` allows. -/
def Deployment.Event.Permitted (may : Fin N → ℕ → Prop) : Deployment.Event N B V → Prop
  | .restart i incarnation _ _ => may i incarnation
  | _ => True

/-! ### Links -/

/-- The bytes of a packet, if it is on this link. -/
def onLink (F : WireFormat B V) (src dst : Fin N) (pkt : Daccord.Packet N (Message (Pending V))) :
    Option B :=
  if pkt.src = src ∧ pkt.dst = dst then F.toBytes pkt.msg.sender (.raft pkt.msg.variant) else none

/-- What the packets of a fleet are on a link. -/
def wire (F : WireFormat B V) (flight : List (Daccord.Packet N (Message (Pending V))))
    (src dst : Fin N) : List B :=
  flight.filterMap (onLink F src dst)

section
variable {F : WireFormat B V} {M : Named N} {src dst : Fin N}
  {flight : List (Daccord.Packet N (Message (Pending V)))}

@[simp] theorem wire_append (xs ys : List (Daccord.Packet N (Message (Pending V)))) :
    wire F (xs ++ ys) src dst = wire F xs src dst ++ wire F ys src dst := List.filterMap_append

/-- The first bytes on a link are those of a packet, and the others come after it. -/
theorem wire_split {bytes : B} {rest : List B}
    (h : (bytes :: rest).Sublist (wire F flight src dst)) :
    ∃ before pkt after, flight = before ++ pkt :: after ∧ onLink F src dst pkt = some bytes ∧
      rest.Sublist (wire F after src dst) := by
  induction flight with
  | nil => cases h
  | cons pkt flight ih =>
    have hskip : (bytes :: rest).Sublist (wire F flight src dst) →
        ∃ before pkt' after, pkt :: flight = before ++ pkt' :: after ∧
          onLink F src dst pkt' = some bytes ∧ rest.Sublist (wire F after src dst) := by
      intro hlater
      obtain ⟨before,pkt',after,rfl,hpkt,hrest⟩ := ih hlater
      exact ⟨pkt :: before,pkt',after,rfl,hpkt,hrest⟩
    cases hpkt : onLink F src dst pkt with
    | none =>
      rw [wire,List.filterMap_cons_none hpkt] at h
      exact hskip h
    | some c =>
      rw [wire,List.filterMap_cons_some hpkt] at h
      cases h with
      | cons _ hlater => exact hskip hlater
      | cons_cons _ hrest => exact ⟨[],pkt,flight,rfl,hpkt,hrest⟩

def between (src dst : Fin N) (pkt : Daccord.Packet N (Message (Pending V))) : Bool :=
  decide (pkt.src = src ∧ pkt.dst = dst)

theorem onLink_some {pkt : Daccord.Packet N (Message (Pending V))} {bytes : B}
    (h : onLink F src dst pkt = some bytes) : pkt.src = src ∧ pkt.dst = dst ∧
      F.toBytes pkt.msg.sender (.raft pkt.msg.variant) = some bytes := by
  unfold onLink at h
  split at h
  · rename_i hlink
    exact ⟨hlink.1,hlink.2,h⟩
  · cases h

theorem wire_others {s t : Fin N} (hne : ¬ (s = src ∧ t = dst))
    (xs : List (Daccord.Packet N (Message (Pending V)))) :
    wire F (xs.filter fun pkt => !between src dst pkt) s t = wire F xs s t := by
  induction xs with
  | nil => rfl
  | cons pkt xs ih =>
    by_cases hlink : between src dst pkt = true
    · have hnone : onLink F s t pkt = none := by
        obtain ⟨hsrc,hdst⟩ := of_decide_eq_true hlink
        refine if_neg fun hst => hne ?_
        exact ⟨hst.1.symm.trans hsrc,hst.2.symm.trans hdst⟩
      rw [List.filter_cons_of_neg (by simp [hlink]),ih]
      exact (List.filterMap_cons_none hnone).symm
    · rw [List.filter_cons_of_pos (by simp [hlink]),wire,wire,List.filterMap_cons,List.filterMap_cons]
      rw [wire,wire] at ih
      rw [ih]

end

/-! ### What a member puts on its links -/

section
variable {F : WireFormat B V} {M : Named N} {C : Setup} {i : Fin N}

theorem Setup.addressees_sublist (C : Setup) (target : SendTarget) :
    (C.addressees target).Sublist C.peers := by
  cases target with
  | peer target =>
    cases h : C.peers.find? fun id => id = target with
    | none => simp [Setup.addressees,h]
    | some id =>
      simp only [Setup.addressees,h,Option.toList_some]
      exact List.singleton_sublist.mpr (List.mem_of_find?_eq_some h)
  | broadcast => exact List.Sublist.refl _

theorem Setup.addressees_named {id : NodeId} {target : SendTarget} (h : id ∈ C.addressees target)
    {dst : Fin N} (hname : id.name = (M.ids dst).name) : M.named dst target = true := by
  cases target with
  | peer target =>
    have hfound := List.find?_some (Option.mem_toList.mp h)
    rw [of_decide_eq_true hfound] at hname
    exact decide_eq_true hname.symm
  | broadcast => rfl

theorem Peers.ne (h : Peers M i C.peers) {id : NodeId} (hid : id ∈ C.peers) {dst : Fin N}
    (hname : id.name = (M.ids dst).name) : dst ≠ i := by
  have hmem := h.subset (List.mem_map_of_mem hid)
  obtain ⟨k,hk,heq⟩ := List.mem_map.mp hmem
  have hdst : k = dst := M.names (heq.trans hname)
  simpa [hdst] using (List.mem_filter.mp hk).2

theorem Peers.posted_le (h : Peers M i C.peers) (dst : Fin N) (bytes : B) :
    (posted M dst (C.peers.map fun id => (id,bytes))).length ≤ 1 := by
  have hnodup : (C.peers.map NodeId.name).Nodup :=
    h.nodup_iff.mpr (((List.nodup_finRange N).filter _).map M.names)
  have hcount : ∀ peers : List NodeId, (posted M dst (peers.map fun id => (id,bytes))).length =
      (peers.map NodeId.name).count (M.ids dst).name := by
    intro peers
    induction peers with
    | nil => rfl
    | cons id peers ih =>
      rw [posted] at ih ⊢
      by_cases hname : id.name = (M.ids dst).name
      · simp only [List.map_cons,List.filterMap_cons,hname,if_true,List.length_cons,ih,
          List.count_cons_self]
      · simp only [List.map_cons,List.filterMap_cons,if_neg hname,ih,List.count_cons_of_ne hname]
  rw [hcount]
  exact List.nodup_iff_count_le_one.mp hnodup _

/-- What reaches a link is what the fleet puts on it, as far as the peer is found. -/
theorem posted_sublist [DecidableEq V] (h : Peers M i C.peers) (dst : Fin N)
    (outs : List (Outgoing (RaftMessage (Pending V)))) :
    (posted M dst (onWire F C outs)).Sublist (wire F (M.packets i C.nodeId outs) i dst) := by
  rw [onWire,sendOutgoing,Named.packets,posted,wire,List.filterMap_flatMap,List.filterMap_flatMap,
    List.flatMap_map]
  refine List.Sublist.flatMap_right outs fun out _ => ?_
  cases hbytes : F.toBytes C.nodeId (.raft out.message) with
  | none =>
    have hnone : (protocolImpl F).toBytes C.nodeId (wrapRaft out).message = none := hbytes
    rw [hnone]
    exact List.nil_sublist _
  | some bytes =>
    have hsome : (protocolImpl F).toBytes C.nodeId (wrapRaft out).message = some bytes := hbytes
    rw [hsome]
    have htarget : (wrapRaft out).target = out.target := rfl
    simp only [htarget]
    have hle := (((C.addressees_sublist out.target).map fun id => (id,bytes)).filterMap
      fun x => if x.1.name = (M.ids dst).name then some x.2 else none).length_le.trans
        (h.posted_le dst bytes)
    have hbound : ∀ l : List B, l.length ≤ 1 → l = [] ∨ ∃ b, l = [b] := by
      intro l hl
      rcases l with _ | ⟨b,_ | ⟨c,l⟩⟩
      · exact Or.inl rfl
      · exact Or.inr ⟨b,rfl⟩
      · simp at hl
    rcases hbound _ hle with hnil | ⟨b,hone⟩
    · rw [hnil]
      exact List.nil_sublist _
    · rw [hone]
      refine List.singleton_sublist.mpr ?_
      have hmem : b ∈ [b] := List.mem_singleton.mpr rfl
      rw [← hone] at hmem
      obtain ⟨x,hx,hb⟩ := List.mem_filterMap.mp hmem
      obtain ⟨id,hid,rfl⟩ := List.mem_map.mp hx
      split at hb
      · rename_i hname
        cases hb
        refine List.mem_filterMap.mpr ⟨⟨i,dst,⟨C.nodeId,out.message⟩⟩,?_,?_⟩
        · refine List.mem_map.mpr ⟨dst,List.mem_filter.mpr ⟨List.mem_finRange dst,?_⟩,rfl⟩
          have hne := h.ne ((C.addressees_sublist out.target).subset hid) hname
          exact Bool.and_eq_true_iff.mpr ⟨decide_eq_true hne,Setup.addressees_named hid hname⟩
        · exact (if_pos ⟨rfl,rfl⟩).trans hbytes
      · cases hb

theorem posted_grows (dst : Fin N) {xs ys : List (NodeId × B)} (h : xs <+: ys) :
    (posted M dst xs).Sublist (posted M dst ys) := h.sublist.filterMap _

end

/-! ### A round of the loop in the fleet -/

/-- The steps of a fleet with queues for links that counts nobody twice. Members come
back only as `may` allows. -/
structure Orderly (may : Fin N → ℕ → Prop) (f : Fleet N (Pending V) V)
    (l : Fleet.Label (Pending V) N) : Prop where
  queued : f.Queued l
  counts : f.CountsOnce l
  permitted : ∀ i now incarnation, l = .restart i now incarnation → may i incarnation

abbrev Sails (M : Named N) (may : Fin N → ℕ → Prop) :
    Fleet N (Pending V) V → Fleet N (Pending V) V → Prop :=
  Runs.Reaches (Fleet.step .pending M) (Orderly may)

/-- Since `f₀` only node `i` has done anything, namely what the journal says. -/
structure Keeps (M : Named N) (f₀ f : Fleet N (Pending V) V) (i : Fin N) (id : NodeId)
    (j : Journal V) : Prop where
  nodes : f.nodes = Function.update f₀.nodes i j.node
  ident : j.node.protocol.nodeId = id
  flight : f.flight = f₀.flight ++ M.packets i id j.sent
  emitted : f.emitted = f₀.emitted ++ j.emitted.map fun x => (i,x)

section
variable {M : Named N} {may : Fin N → ℕ → Prop} {env : Env} {f₀ f f' : Fleet N (Pending V) V}
  {i : Fin N} {id : NodeId} {j j' : Journal V}

theorem Keeps.start (hid : (f.nodes i).protocol.nodeId = id) :
    Keeps M f f i id ⟨f.nodes i,[],[]⟩ :=
  ⟨(Function.update_eq_self i f.nodes).symm,hid,(List.append_nil _).symm,(List.append_nil _).symm⟩

theorem Keeps.node (h : Keeps M f₀ f i id j) : f.nodes i = j.node := by
  rw [h.nodes,Function.update_self]

theorem Keeps.turn (h : Keeps M f₀ f i id j) (hsync : Synced .pending j.node)
    {wake : Raft.Wake (Pending V)} {input : Raft.Input (Pending V)} {rest : List (Pending V)}
    (ha : j.node.accepts wake.input = some (input,rest)) (hs : j.step wake = some j') :
    Keeps M f₀ (f.take .pending M i wake.env input rest wake.fate) i id j' := by
  simp only [Journal.step,ha,Option.map_some,Option.some.injEq] at hs
  subst hs
  have hlanded := hsync.landed wake.env input rest wake.fate
  refine ⟨?_,hlanded.ident.trans h.ident,?_,?_⟩
  · simp only [Fleet.take]
    rw [h.node,h.nodes,Function.update_idem]
  · simp only [Fleet.take]
    rw [h.node,h.ident,h.flight,List.append_assoc,Named.packets,Named.packets,Named.packets,
      List.flatMap_append]
  · simp only [Fleet.take]
    rw [h.node,h.emitted,List.append_assoc,List.map_append]

theorem Sails.synced (h : Sails M may (.init .pending M env) f) (i : Fin N) :
    Synced .pending (f.nodes i) :=
  (Fleet.polling_reaches h).synced i

theorem Keeps.reproposes (h : Keeps M f₀ f i id j) (hsail : Sails M may (.init .pending M env) f)
    (hr : Runs.Reaches Journal.step Reproposes j j') : ∃ f', Sails M may f f' ∧ Keeps M f₀ f' i id j' := by
  induction hr with
  | start => exact ⟨f,.start,h⟩
  | @next j₁ j₂ wake _ hwake hs ih =>
    obtain ⟨f₁,hsail₁,hkeeps⟩ := ih
    obtain ⟨env',input,fate⟩ := wake
    obtain rfl : input = none := hwake
    have hsync := Sails.synced (hsail.trans hsail₁) i
    rw [hkeeps.node] at hsync
    obtain ⟨r,ha,_⟩ := Option.map_eq_some_iff.mp hs
    refine ⟨_,.next (l := .repropose i env' fate) hsail₁ ⟨trivial,trivial,by simp⟩ ?_,hkeeps.turn hsync ha hs⟩
    rw [Fleet.step,hkeeps.node,ha]
    rfl

theorem Sails.act (hsail : Sails M may (.init .pending M env) f) (hid : (f.nodes i).protocol.nodeId = id)
    {input : Raft.Input (Pending V)} (hinput : ∀ sender msg, input ≠ .message sender msg)
    (ht : Journal.Takes ⟨f.nodes i,[],[]⟩ input j') : ∃ f', Sails M may f f' ∧ Keeps M f f' i id j' := by
  obtain ⟨env',fate,j₁,hs,hrest⟩ := ht
  obtain ⟨value,rfl⟩ : ∃ value, input = Raft.Label.input value := by
    cases input with
    | propose value => exact ⟨some value,rfl⟩
    | tick => exact ⟨none,rfl⟩
    | message sender msg => exact absurd rfl (hinput sender msg)
  obtain ⟨r,ha,_⟩ := Option.map_eq_some_iff.mp hs
  have hfirst := (Keeps.start (M := M) hid).turn (Sails.synced hsail i) ha hs
  have hstep : Sails M may f _ := .next (l := .act i env' value fate) .start ⟨trivial,trivial,by simp⟩ (by
    rw [Fleet.step,ha]
    rfl)
  obtain ⟨f',hsail',hkeeps⟩ := hfirst.reproposes (hsail.trans hstep) hrest
  exact ⟨f',hstep.trans hsail',hkeeps⟩

theorem Sails.lose (src dst : Fin N) (xs done rest : List (Daccord.Packet N (Message (Pending V))))
    (f : Fleet N (Pending V) V) (hf : f.flight = done ++ (xs ++ rest)) :
    Sails M may f { f with flight := done ++ (xs.filter (fun pkt => !between src dst pkt) ++ rest) } := by
  induction xs generalizing f done with
  | nil =>
    rw [List.filter_nil,List.nil_append]
    rw [List.nil_append] at hf
    rw [← hf]
    exact .start
  | cons pkt xs ih =>
    by_cases hlink : between src dst pkt = true
    · have hlost : f.flight.eraseIdx done.length = done ++ (xs ++ rest) := by
        rw [hf,List.eraseIdx_append_of_length_le le_rfl,Nat.sub_self]
        rfl
      have hstep : Sails M may f { f with flight := done ++ (xs ++ rest) } :=
        .next (l := .lose done.length) .start ⟨trivial,trivial,by simp⟩ (by
          rw [Fleet.step,if_pos (by rw [hf]; simp),hlost])
      rw [List.filter_cons_of_neg (by simp [hlink])]
      exact hstep.trans (ih done _ rfl)
    · have hmore := ih (done ++ [pkt]) f (by rw [hf]; simp)
      rw [List.append_assoc] at hmore
      rw [List.filter_cons_of_pos (by simp [hlink])]
      exact hmore

theorem Sails.deliver (hsail : Sails M may (.init .pending M env) f)
    {before after : List (Daccord.Packet N (Message (Pending V)))}
    {pkt : Daccord.Packet N (Message (Pending V))} (hflight : f.flight = before ++ pkt :: after)
    (hcounts : (f.nodes pkt.dst).protocol.CountsOnce pkt.msg.sender pkt.msg.variant)
    (hid : (f.nodes pkt.dst).protocol.nodeId = id)
    (ht : Journal.Takes ⟨f.nodes pkt.dst,[],[]⟩ (.message pkt.msg.sender pkt.msg.variant) j') :
    ∃ f', Sails M may f f' ∧ Keeps M { f with
      flight := before.filter (fun x => !between pkt.src pkt.dst x) ++ after } f' pkt.dst id j' := by
  obtain ⟨env',fate,j₁,hs,hrest⟩ := ht
  obtain ⟨r,ha,_⟩ := Option.map_eq_some_iff.mp hs
  have hclear : Sails M may f { f with
      flight := [] ++ (before.filter (fun x => !between pkt.src pkt.dst x) ++ pkt :: after) } :=
    Sails.lose pkt.src pkt.dst before [] (pkt :: after) f hflight
  rw [List.nil_append] at hclear
  generalize hearlier : before.filter (fun x => !between pkt.src pkt.dst x) = earlier at hclear ⊢
  have hget : (earlier ++ pkt :: after)[earlier.length]? = some pkt := by simp
  have herase : (earlier ++ pkt :: after).eraseIdx earlier.length = earlier ++ after := by
    rw [List.eraseIdx_append_of_length_le le_rfl,Nat.sub_self]
    rfl
  have hstart : Keeps M { f with flight := earlier ++ after } { f with flight := earlier ++ after }
      pkt.dst id ⟨f.nodes pkt.dst,[],[]⟩ := .start hid
  have hfirst := hstart.turn (Sails.synced hsail pkt.dst) ha hs
  -- what is left before the packet is on other links
  have hqueued : ∀ x ∈ earlier, ¬ (x.src = pkt.src ∧ x.dst = pkt.dst) := by
    intro x hx
    rw [← hearlier] at hx
    simpa [between,imp_iff_not_or] using (List.mem_filter.mp hx).2
  have horderly : Orderly may { f with flight := earlier ++ pkt :: after }
      (.deliver earlier.length env' fate) := by
    refine ⟨fun x hx y hy => ?_,fun x hx => ?_,by simp⟩
    · cases (show (earlier ++ pkt :: after)[earlier.length]? = some x from hx).symm.trans hget
      rw [List.take_left] at hy
      exact hqueued y hy
    · cases (show (earlier ++ pkt :: after)[earlier.length]? = some x from hx).symm.trans hget
      exact hcounts
  have hstep : Sails M may f _ := .next hclear horderly (by
    rw [Fleet.step]
    simp only [hget,Option.bind_some]
    rw [ha]
    simp only [Option.map_some,herase]
    rfl)
  obtain ⟨f',hsail',hkeeps⟩ := hfirst.reproposes (hsail.trans hstep) hrest
  exact ⟨f',hstep.trans hsail',hkeeps⟩

end

end EventLoop
end Daccord
