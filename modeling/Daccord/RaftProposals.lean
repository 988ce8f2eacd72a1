import Daccord.RaftCustody
import Daccord.RaftFifo
import Mathlib.Algebra.Order.BigOperators.Group.Finset
import Mathlib.Data.Multiset.Bind

/-! Proposals in a cluster. The values that wait at a node or travel in a
`Forward` are tokens: a turn hands them on, makes entries of them or drops them,
and never makes a second one. Entries keep their index from log to log. -/
namespace Daccord
namespace Raft

open ReplicatedLog (State)

variable {V : Type} {N : ℕ}

/-- The values a process has still to propose or pass on. -/
def RaftNode.keeps (n : RaftNode V V) : List V := n.protocol.waiting ++ n.backlog

/-- The values on their way in a `Forward`. -/
def inFlight (pkts : List (Packet N V)) : List V := pkts.flatMap fun pkt => passed pkt.msg

@[simp] theorem inFlight_append (ps qs : List (Packet N V)) :
    inFlight (ps ++ qs) = inFlight ps ++ inFlight qs := List.flatMap_append

def bornAt (p q : RaftProtocol V) : List (ℕ × LogEntry V) :=
  (born p q).mapIdx fun k e => (p.log.length + k,e)

section
variable {p q : RaftProtocol V}

theorem mem_bornAt {n : ℕ} {e : LogEntry V} (hle : p.log.length ≤ n)
    (h : (born p q)[n - p.log.length]? = some e) : (n,e) ∈ bornAt p q := by
  refine List.mem_of_getElem? (i := n - p.log.length) ?_
  rw [bornAt,List.getElem?_mapIdx,h,Option.map_some,Nat.add_sub_cancel' hle]

theorem bornAt_values : (bornAt p q).map (fun x => x.2.value) = (born p q).map LogEntry.value := by
  apply List.ext_getElem?
  intro k
  simp [bornAt,Function.comp_def]

end

section
variable {M : Membership N} {i : Fin N}

theorem Membership.route_peer_length {T : Type} (M : Daccord.Membership N) (i : Fin N)
    {out : Outgoing T} {id : NodeId} (h : out.target = .peer id) : (M.route i out).length ≤ 1 := by
  have hall : ∀ l : List (Fin N), l.Nodup → (∀ a ∈ l, ∀ b ∈ l, a = b) → l.length ≤ 1 := by
    intro l hn he
    match l with
    | [] => exact Nat.zero_le _
    | [_] => exact le_rfl
    | a :: b :: l =>
      have hab := he a List.mem_cons_self b (List.mem_cons_of_mem _ List.mem_cons_self)
      exact absurd (hab ▸ List.mem_cons_self) (List.nodup_cons.mp hn).1
  rw [Membership.route,List.length_map]
  refine hall _ ((List.nodup_finRange N).filter _) fun a ha b hb => M.distinct ?_
  simp only [h,Membership.addressed,List.mem_filter,Bool.and_eq_true,decide_eq_true_eq] at ha hb
  exact ha.2.2.trans hb.2.2.symm

/-- A `Forward` is sent to one node, so what it carries arrives once or not at all. -/
theorem inFlight_route {out : Outgoing (RaftMessage V)}
    (h : passed out.message ≠ [] → ∃ id, out.target = .peer id) :
    List.Sublist (inFlight (M.route i out)) (passed out.message) := by
  have hmsg : ∀ pkt ∈ M.route i out, pkt.msg = out.message := fun _ hp => (Membership.mem_route hp).2.2.2
  by_cases hp : passed out.message = []
  · have hnil : inFlight (M.route i out) = [] :=
      List.flatMap_eq_nil_iff.mpr fun pkt hpkt => by rw [hmsg pkt hpkt,hp]
    rw [hnil]
    exact List.nil_sublist _
  · obtain ⟨id,hid⟩ := h hp
    have hlen := Membership.route_peer_length M.toMembership i hid
    match hr : M.route i out with
    | [] => exact List.nil_sublist _
    | [pkt] =>
      have hpkt : pkt.msg = out.message := hmsg pkt (hr ▸ List.mem_cons_self)
      simp [inFlight,hpkt]
    | _ :: _ :: _ =>
      rw [hr] at hlen
      simp at hlen

theorem inFlight_routes {outs : List (Outgoing (RaftMessage V))}
    (h : ∀ out ∈ outs, passed out.message ≠ [] → ∃ id, out.target = .peer id) :
    List.Sublist (inFlight (outs.flatMap (M.route i))) (passedOn outs) := by
  induction outs with
  | nil => exact List.nil_sublist _
  | cons out outs ih =>
    rw [List.flatMap_cons,inFlight_append,passedOn,List.flatMap_cons]
    exact (inFlight_route (h out List.mem_cons_self)).append
      (ih fun o ho => h o (List.mem_cons_of_mem _ ho))

theorem boot_keeps (env : Env) (id : NodeId) (total : ℕ) (cfg : RaftConfig) (st : RaftStorage V) :
    (RaftNode.boot .exact env id total cfg st).keeps = [] ∧
      ∀ d ∈ (RaftNode.boot .exact env id total cfg st).protocol.pendingDecisions,
        ∃ e, st.log[d.slot]? = some e ∧ e.value = d.value := by
  obtain ⟨ds,la,heq,hds⟩ := recover_frame .exact env (.new env id total cfg) st
  rw [RaftNode.keeps,RaftNode.boot,heq]
  refine ⟨rfl,fun d hd => ?_⟩
  rw [← Adapter.exact_wrap st.log]
  exact hds d hd

theorem turn_keeps (A : Adapter V V) (env : Env) (p : RaftProtocol V) (input : Input V)
    (rest : List V) : List.Perm
      ((turn A env p input).final.waiting ++ (rest ++ (turn A env p input).lost))
      ((turn A env p input).handled.waiting ++ rest) := by
  unfold turn
  generalize p.handle env input = r
  cases input with
  | propose v =>
    rw [List.append_nil]
    exact .refl _
  | tick =>
    rw [List.append_nil]
    exact .refl _
  | message sender msg =>
    simp only [RaftProtocol.waiting,RaftProtocol.takeLostProposals,RaftProtocol.takeDecisions,
      RaftProtocol.drainPersistIntent,List.append_nil,List.append_assoc]
    exact List.Perm.append_left _ List.perm_append_comm

/-- The tokens of a turn: what the node keeps, what it sends and what has become
an entry, against what it kept and was handed. -/
theorem Synced.tokens {n : RaftNode V V} (h : Synced .exact n) (M : Membership N) (i : Fin N)
    (env : Env) (input : Input V) (rest : List V) (fate : Fate) :
    let t := turn .exact env n.protocol input
    ((n.after .exact env t rest fate).keeps : Multiset V) +
      (inFlight (((fate.cut (t.effects .exact)).filterMap Effect.sent).flatMap (M.route i)) :
        Multiset V) + ((born n.protocol t.handled).map LogEntry.value : Multiset V) ≤
    (n.protocol.waiting : Multiset V) + (rest : Multiset V) + (input.offered : Multiset V) := by
  intro t
  have hc := h.clean.custody env input
  have hsent : (inFlight (((fate.cut (t.effects .exact)).filterMap Effect.sent).flatMap
      (M.route i)) : Multiset V) ≤ (passedOn t.outgoing : Multiset V) := by
    have hpre := Fate.sent_prefix (A := .exact) t fate
    refine Multiset.coe_le.mpr (List.Sublist.subperm ?_)
    refine (inFlight_routes fun out hout hne => ?_).trans (hpre.sublist.flatMap _)
    obtain ⟨_,id,_,hid⟩ := hc.addressed out (hpre.subset hout) hne
    exact ⟨id,hid⟩
  have hkeeps : ((n.after .exact env t rest fate).keeps : Multiset V) ≤
      (t.handled.waiting : Multiset V) + (rest : Multiset V) := by
    cases fate with
    | dies k =>
      have hnil : (n.after .exact env t rest (.dies k)).keeps = [] := (boot_keeps env _ _ _ _).1
      rw [hnil]
      exact Multiset.zero_le _
    | completes => exact (Multiset.coe_eq_coe.mpr (turn_keeps .exact env n.protocol input rest)).le
  have hperm : (t.handled.waiting : Multiset V) + (passedOn t.outgoing : Multiset V) +
      ((born n.protocol t.handled).map LogEntry.value : Multiset V) ≤
      (n.protocol.waiting : Multiset V) + (input.offered : Multiset V) := by
    have heq := Multiset.coe_eq_coe.mpr hc.proposals
    simp only [← Multiset.coe_add] at heq
    rw [← heq]
    exact Multiset.le_add_right _ _
  calc _ ≤ ((t.handled.waiting : Multiset V) + (rest : Multiset V)) +
        (passedOn t.outgoing : Multiset V) +
        ((born n.protocol t.handled).map LogEntry.value : Multiset V) := by gcongr
    _ = ((t.handled.waiting : Multiset V) + (passedOn t.outgoing : Multiset V) +
        ((born n.protocol t.handled).map LogEntry.value : Multiset V)) + (rest : Multiset V) := by
      abel
    _ ≤ ((n.protocol.waiting : Multiset V) + (input.offered : Multiset V)) +
        (rest : Multiset V) := by gcongr
    _ = _ := by abel

end

/-- Entry `e` at index `n` of a log, of a message or of a decision meets `E`. -/
structure Cluster.Placed (E : ℕ → LogEntry V → Prop) (s : Cluster N V) : Prop where
  synced : ∀ i, Synced .exact (s.nodes i)
  logs : ∀ i {n e}, (s.nodes i).protocol.log[n]? = some e → E n e
  flight : ∀ pkt ∈ s.flight, ∀ {n e}, Brings pkt.msg n e → E n e
  pending : ∀ i, ∀ d ∈ (s.nodes i).protocol.pendingDecisions, ∃ e, E d.slot e ∧ e.value = d.value
  emitted : ∀ x ∈ s.emitted, ∃ e, E x.2.slot e ∧ e.value = x.2.value

section
variable {E E' : ℕ → LogEntry V → Prop} {M : Membership N} {s s' : Cluster N V} {l : Label V N}
  {i : Fin N}

theorem Cluster.Placed.init (E : ℕ → LogEntry V → Prop) (M : Membership N) (env : Env) :
    (Cluster.init M env).Placed E := by
  have hnode : ∀ i, ((Cluster.init M env).nodes i).protocol = RaftProtocol.new (V := V) env (M.ids i)
      N M.config := fun i => boot_new .exact env (M.ids i) N M.config
  refine ⟨fun i => .boot .exact env (M.ids i) N M.config .new,fun i n e hn => ?_,nofun,?_,nofun⟩
  · rw [hnode,RaftProtocol.new] at hn
    cases hn
  · intro i d hd
    rw [hnode] at hd
    cases hd

theorem Cluster.Placed.mono (h : s.Placed E) (hE : ∀ n e, E n e → E' n e) : s.Placed E' := by
  refine ⟨h.synced,fun i n e hn => hE _ _ (h.logs i hn),
    fun pkt hp n e hb => hE _ _ (h.flight pkt hp hb),fun i d hd => ?_,fun x hx => ?_⟩
  · obtain ⟨e,he,hv⟩ := h.pending i d hd
    exact ⟨e,hE _ _ he,hv⟩
  · obtain ⟨e,he,hv⟩ := h.emitted x hx
    exact ⟨e,hE _ _ he,hv⟩

/-- A turn that is handed placed entries and places those it makes. -/
theorem Cluster.Placed.take (h : s.Placed E) (env : Env) (input : Input V) (rest : List V)
    (fate : Fate)
    (hin : ∀ sender msg, input = .message sender msg → ∀ {n e}, Brings msg n e → E n e)
    (hborn : ∀ x ∈ bornAt (s.nodes i).protocol ((s.nodes i).protocol.handle env input).1,
      E x.1 x.2) :
    (s.take M i env input rest fate).Placed E := by
  have hc := (h.synced i).clean.custody env input
  have hlog : ∀ {n e}, ((s.nodes i).protocol.handle env input).1.log[n]? = some e → E n e := by
    intro n e hn
    rcases hc.log hn with hn | ⟨hle,hn⟩ | ⟨sender,msg,hmsg,hb⟩
    · exact h.logs i hn
    · exact hborn (n,e) (mem_bornAt hle hn)
    · exact hin sender msg hmsg hb
  have hdec : ∀ d ∈ ((s.nodes i).protocol.handle env input).1.pendingDecisions,
      ∃ e, E d.slot e ∧ e.value = d.value := by
    intro d hd
    rcases hc.decisions d hd with hd | ⟨e,he,hv⟩
    · exact h.pending i d hd
    · exact ⟨e,hlog he,hv⟩
  have hafter : ∀ {n e}, ((s.nodes i).after .exact env (turn .exact env (s.nodes i).protocol input)
      rest fate).protocol.log[n]? = some e → E n e := by
    intro n e hn
    rcases ((h.synced i).lands env input rest fate).2 hn with hn | ⟨hn,_⟩
    · exact h.logs i hn
    · exact hlog hn
  refine ⟨fun j => ?_,fun j n e hn => ?_,fun pkt hpkt n e hb => ?_,fun j d hd => ?_,fun x hx => ?_⟩
  · by_cases hj : j = i
    · subst hj
      simp only [Cluster.take,Function.update_self]
      exact (h.synced j).after env input rest fate
    · simp only [Cluster.take,Function.update_of_ne hj]
      exact h.synced j
  · by_cases hj : j = i
    · subst hj
      simp only [Cluster.take,Function.update_self] at hn
      exact hafter hn
    · simp only [Cluster.take,Function.update_of_ne hj] at hn
      exact h.logs j hn
  · rcases List.mem_append.mp hpkt with hpkt | hpkt
    · exact h.flight pkt hpkt hb
    · obtain ⟨out,hout,hpkt⟩ := List.mem_flatMap.mp hpkt
      rw [(Membership.mem_route hpkt).2.2.2] at hb
      exact hlog (hc.sent out ((Fate.sent_prefix _ _).subset hout) hb)
  · by_cases hj : j = i
    · subst hj
      simp only [Cluster.take,Function.update_self] at hd
      cases fate with
      | completes =>
        obtain ⟨lost,hfinal⟩ := turn_final .exact env (s.nodes j).protocol input
        simp only [RaftNode.after] at hd
        rw [hfinal] at hd
        cases hd
      | dies k =>
        obtain ⟨e,he,hv⟩ := (boot_keeps env _ _ _ _).2 d hd
        refine ⟨e,hafter (n := d.slot) ?_,hv⟩
        rw [← he]
        exact congrArg (fun l => l[d.slot]?) (boot_log env _ _ _ _).2
    · simp only [Cluster.take,Function.update_of_ne hj] at hd
      exact h.pending j d hd
  · rcases List.mem_append.mp hx with hx | hx
    · exact h.emitted x hx
    · obtain ⟨d,hd,rfl⟩ := List.mem_map.mp hx
      exact hdec d (Fate.mem_emitted hd)

theorem Cluster.Placed.restart (h : s.Placed E) (i : Fin N) (env : Env) :
    ({ s with
      nodes := Function.update s.nodes i (s.rebooted i env)
      elected := s.elected ++ leading i (s.rebooted i env).protocol } : Cluster N V).Placed E := by
  have hdisk : (s.nodes i).storage.log = (s.nodes i).protocol.log := by
    rw [(h.synced i).holds.log,Adapter.exact_strip]
  refine ⟨fun j => ?_,fun j n e hn => ?_,h.flight,fun j d hd => ?_,h.emitted⟩
  · by_cases hj : j = i
    · subst hj
      simp only [Function.update_self]
      exact .boot .exact env _ _ _ _
    · simp only [Function.update_of_ne hj]
      exact h.synced j
  · by_cases hj : j = i
    · subst hj
      simp only [Function.update_self,Cluster.rebooted] at hn
      rw [(boot_log env _ _ _ _).2,hdisk] at hn
      exact h.logs j hn
    · simp only [Function.update_of_ne hj] at hn
      exact h.logs j hn
  · by_cases hj : j = i
    · subst hj
      simp only [Function.update_self,Cluster.rebooted] at hd
      obtain ⟨e,he,hv⟩ := (boot_keeps env _ _ _ _).2 d hd
      rw [hdisk] at he
      exact ⟨e,h.logs j he,hv⟩
    · simp only [Function.update_of_ne hj] at hd
      exact h.pending j d hd

theorem Cluster.Placed.fewer (h : s.Placed E) {flight : List (Packet N V)}
    (hf : ∀ pkt ∈ flight, pkt ∈ s.flight) : { s with flight := flight }.Placed E :=
  ⟨h.synced,h.logs,fun pkt hp _ _ hb => h.flight pkt (hf pkt hp) hb,h.pending,h.emitted⟩

theorem Cluster.Wakes.flight {env : Env} {input : Input V} {rest : List V} {fate : Fate}
    {flight : List (Packet N V)} (hw : s.Wakes M l i env input rest fate flight) :
    (∀ pkt ∈ flight, pkt ∈ s.flight) ∧
      ∀ sender msg, input = .message sender msg →
        ∃ pkt ∈ s.flight, pkt.dst = i ∧ pkt.msg = msg ∧ sender = M.ids pkt.src := by
  cases hw with
  | @act _ _ input => exact ⟨fun _ h => h,fun _ _ hmsg => by cases input <;> cases hmsg⟩
  | repropose => exact ⟨fun _ h => h,fun _ _ hmsg => by cases hmsg⟩
  | @deliver _ _ _ pkt hpkt =>
    refine ⟨fun _ h => List.mem_of_mem_eraseIdx h,fun sender msg hmsg => ?_⟩
    cases hmsg
    exact ⟨pkt,List.mem_of_getElem? hpkt,rfl,rfl,rfl⟩

theorem Cluster.Placed.wakes (h : s.Placed E) {env : Env} {input : Input V} {rest : List V}
    {fate : Fate} {flight : List (Packet N V)} (hw : s.Wakes M l i env input rest fate flight)
    (hborn : ∀ x ∈ bornAt (s.nodes i).protocol ((s.nodes i).protocol.handle env input).1,
      E x.1 x.2) : ({ s with flight := flight }.take M i env input rest fate).Placed E := by
  obtain ⟨hf,hm⟩ := hw.flight
  refine (h.fewer hf).take env input rest fate (fun sender msg hmsg n e hb => ?_) hborn
  obtain ⟨pkt,hpkt,_,rfl,_⟩ := hm sender msg hmsg
  exact h.flight pkt hpkt hb

end

def Cluster.tokens (s : Cluster N V) : Multiset V :=
  (∑ i, ((s.nodes i).keeps : Multiset V)) + (inFlight s.flight : Multiset V)

def Label.submitted : Label V N → Option V
  | .act _ _ input _ => input
  | _ => none

section
variable {M : Membership N} {s s' : Cluster N V} {l : Label V N} {i : Fin N}

theorem sum_update_add {A : Type} (f : A → Multiset V) (g : Fin N → A) (i : Fin N) (a : A) :
    ∑ j, f (Function.update g i a j) + f (g i) = ∑ j, f (g j) + f a := by
  have h : ∀ b, ∑ j, f (Function.update g i b j) = f b + ∑ j ∈ Finset.univ.erase i, f (g j) := by
    intro b
    rw [← Finset.add_sum_erase Finset.univ _ (Finset.mem_univ i),Function.update_self]
    congr 1
    refine Finset.sum_congr rfl fun j hj => ?_
    rw [Function.update_of_ne (Finset.ne_of_mem_erase hj)]
  have hi := h (g i)
  rw [Function.update_eq_self] at hi
  rw [h a,hi]
  abel

theorem inFlight_eraseIdx {flight : List (Packet N V)} {pos : ℕ} {pkt : Packet N V}
    (h : flight[pos]? = some pkt) :
    (inFlight flight : Multiset V) = (inFlight (flight.eraseIdx pos) : Multiset V) +
      (passed pkt.msg : Multiset V) := by
  obtain ⟨hlt,hget⟩ := List.getElem?_eq_some_iff.mp h
  rw [List.eraseIdx_eq_take_drop_succ]
  nth_rewrite 1 [← List.take_append_drop pos flight]
  rw [← List.getElem_cons_drop hlt,hget]
  simp only [inFlight,List.flatMap_append,List.flatMap_cons,← Multiset.coe_add]
  abel

theorem Cluster.Wakes.handed {env : Env} {input : Input V} {rest : List V} {fate : Fate}
    {flight : List (Packet N V)} (hw : s.Wakes M l i env input rest fate flight) :
    ((s.nodes i).protocol.waiting : Multiset V) + (rest : Multiset V) +
      (input.offered : Multiset V) + (inFlight flight : Multiset V) =
      ((s.nodes i).keeps : Multiset V) + (inFlight s.flight : Multiset V) +
        (l.submitted.toList : Multiset V) := by
  cases hw with
  | @act _ _ input _ h =>
    have hoff : (Label.input input).offered = input.toList := by cases input <;> rfl
    rw [RaftNode.keeps,h,hoff,List.append_nil,Multiset.coe_nil,Label.submitted]
    abel
  | @repropose _ _ _ v rest h =>
    rw [RaftNode.keeps,h,← Multiset.coe_add,← List.singleton_append,← Multiset.coe_add]
    simp only [Input.offered,Label.submitted,Option.toList_none,Multiset.coe_nil]
    abel
  | deliver hpkt h =>
    rw [RaftNode.keeps,h,inFlight_eraseIdx hpkt]
    simp only [Input.offered,Label.submitted,Option.toList_none,Multiset.coe_nil,List.append_nil]
    abel

/-- A turn makes no token: those after it and the entries it has made come from
the tokens before it and the value submitted. -/
theorem Cluster.Wakes.tokens {env : Env} {input : Input V} {rest : List V} {fate : Fate}
    {flight : List (Packet N V)} (hw : s.Wakes M l i env input rest fate flight)
    (hs : Synced .exact (s.nodes i)) :
    ({ s with flight := flight }.take M i env input rest fate).tokens +
      ((born (s.nodes i).protocol ((s.nodes i).protocol.handle env input).1).map LogEntry.value :
        Multiset V) ≤ s.tokens + (l.submitted.toList : Multiset V) := by
  have ht := hs.tokens M i env input rest fate
  have hsum := sum_update_add (fun n : RaftNode V V => (n.keeps : Multiset V)) s.nodes i
    ((s.nodes i).after .exact env (turn .exact env (s.nodes i).protocol input) rest fate)
  refine le_of_add_le_add_right (a := ((s.nodes i).keeps : Multiset V)) ?_
  set pkts := ((fate.cut ((turn .exact env (s.nodes i).protocol input).effects
    .exact)).filterMap Effect.sent).flatMap (M.route i)
  set nodes := ∑ j, ((s.nodes j).keeps : Multiset V)
  simp only [Cluster.tokens,Cluster.take,inFlight_append,← Multiset.coe_add]
  calc
    _ = (nodes + (inFlight flight : Multiset V)) +
        (((s.nodes i).after .exact env (turn .exact env (s.nodes i).protocol input) rest
          fate).keeps + (inFlight pkts : Multiset V) + ((born (s.nodes i).protocol
            ((s.nodes i).protocol.handle env input).1).map LogEntry.value : Multiset V)) := by
      rw [add_right_comm,add_right_comm _ _ ((s.nodes i).keeps : Multiset V),hsum]
      abel
    _ ≤ (nodes + (inFlight flight : Multiset V)) + (((s.nodes i).protocol.waiting : Multiset V) +
        (rest : Multiset V) + (input.offered : Multiset V)) := add_le_add le_rfl ht
    _ = nodes + (((s.nodes i).protocol.waiting : Multiset V) + (rest : Multiset V) +
        (input.offered : Multiset V) + (inFlight flight : Multiset V)) := by abel
    _ = _ := by
      rw [hw.handed]
      abel

theorem Cluster.tokens_restart (s : Cluster N V) (i : Fin N) (env : Env) :
    ({ s with
      nodes := Function.update s.nodes i (s.rebooted i env)
      elected := s.elected ++ leading i (s.rebooted i env).protocol } : Cluster N V).tokens ≤
      s.tokens := by
  have hsum := sum_update_add (fun n : RaftNode V V => (n.keeps : Multiset V)) s.nodes i
    (s.rebooted i env)
  rw [Cluster.rebooted,(boot_keeps env _ _ _ _).1,Multiset.coe_nil,add_zero] at hsum
  rw [Cluster.tokens,Cluster.tokens,← hsum]
  gcongr
  exact Multiset.le_add_right _ _

theorem Cluster.tokens_lose (s : Cluster N V) (pos : ℕ) :
    { s with flight := s.flight.eraseIdx pos }.tokens ≤ s.tokens := by
  rw [Cluster.tokens,Cluster.tokens]
  gcongr
  exact Multiset.coe_le.mpr ((List.eraseIdx_sublist _ _).flatMap _).subperm

end

/-- No packet comes twice. -/
def Unduplicated (_ : Cluster N V) : Label V N → Prop
  | .duplicate _ => False
  | _ => True

instance (s : Cluster N V) (l : Label V N) : Decidable (Unduplicated s l) :=
  match l with
  | .duplicate _ => isFalse id
  | .act .. => isTrue trivial
  | .repropose .. => isTrue trivial
  | .deliver .. => isTrue trivial
  | .restart .. => isTrue trivial
  | .lose .. => isTrue trivial

/-- `made` lists every entry ever made of a proposal, with its index; together
with the tokens they come from the values submitted, one for one. -/
structure Ledger (ls : List (Label V N)) (s : Cluster N V) (made : List (ℕ × LogEntry V)) :
    Prop where
  placed : s.Placed fun n e => (n,e) ∈ made
  once : s.tokens + (made.map fun x => x.2.value : List V) ≤
    (ls.filterMap Label.submitted : Multiset V)

section
variable {M : Membership N} {s s' : Cluster N V} {l : Label V N} {ls : List (Label V N)}
  {made : List (ℕ × LogEntry V)}

theorem Ledger.init (M : Membership N) (env : Env) :
    Ledger (V := V) [] (.init M env) [] := by
  refine ⟨.init _ M env,?_⟩
  have hkeeps : ∀ i, (RaftNode.boot .exact env (M.ids i) N M.config .new).keeps = ([] : List V) :=
    fun i => (boot_keeps env _ _ _ _).1
  simp [Cluster.tokens,hkeeps,inFlight,Cluster.init]

theorem Ledger.step (h : Ledger ls s made) (hl : Unduplicated s l) (hs : s.step M l = some s') :
    ∃ made', Ledger (ls ++ [l]) s' made' := by
  have hsub : ((ls ++ [l]).filterMap Label.submitted : Multiset V) =
      (ls.filterMap Label.submitted : Multiset V) + (l.submitted.toList : Multiset V) := by
    rw [List.filterMap_append,← Multiset.coe_add]
    cases hv : l.submitted <;> simp [hv]
  have hold : (ls.filterMap Label.submitted : Multiset V) ≤
      ((ls ++ [l]).filterMap Label.submitted : Multiset V) := hsub ▸ Multiset.le_add_right _ _
  rcases Cluster.step_cases hs with ⟨i,env,input,rest,fate,flight,hw,rfl⟩ | ⟨i,env,rfl,rfl⟩ |
    ⟨pos,rfl,rfl⟩ | ⟨pos,pkt,rfl,hpkt,rfl⟩
  · set new := bornAt (s.nodes i).protocol ((s.nodes i).protocol.handle env input).1
    refine ⟨made ++ new,?_,?_⟩
    · exact (h.placed.mono fun _ _ he => List.mem_append_left _ he).wakes hw
        fun _ hx => List.mem_append_right _ hx
    · have ht := hw.tokens (h.placed.synced i)
      rw [List.map_append,bornAt_values,← Multiset.coe_add,hsub,add_left_comm,add_comm]
      calc
        _ ≤ s.tokens + (l.submitted.toList : Multiset V) +
            (made.map fun x => x.2.value : List V) := add_le_add ht le_rfl
        _ = s.tokens + (made.map fun x => x.2.value : List V) +
            (l.submitted.toList : Multiset V) := add_right_comm _ _ _
        _ ≤ _ := add_le_add h.once le_rfl
  · exact ⟨made,h.placed.restart i env,
      (add_le_add (s.tokens_restart i env) le_rfl).trans (h.once.trans hold)⟩
  · exact ⟨made,h.placed.fewer fun _ hp => List.mem_of_mem_eraseIdx hp,
      (add_le_add (s.tokens_lose pos) le_rfl).trans (h.once.trans hold)⟩
  · exact hl.elim

theorem Ledger.trace {env : Env} (h : Runs.Trace (Cluster.step M) Unduplicated (.init M env) ls s) :
    ∃ made, Ledger ls s made := by
  induction h with
  | start => exact ⟨[],.init M env⟩
  | next _ hl hs ih =>
    obtain ⟨made,hmade⟩ := ih
    exact hmade.step hl hs

/-- Values submitted once become entries once. -/
theorem Ledger.unique (h : Ledger ls s made) (hd : (ls.filterMap Label.submitted).Nodup)
    {n m : ℕ} {e e' : LogEntry V} (he : (n,e) ∈ made) (he' : (m,e') ∈ made)
    (hv : e.value = e'.value) : n = m := by
  have hle := (Multiset.le_add_left _ _).trans h.once
  have hnodup : (made.map fun x => x.2.value).Nodup :=
    Multiset.coe_nodup.mp (Multiset.nodup_of_le hle (Multiset.coe_nodup.mpr hd))
  exact congrArg Prod.fst (List.inj_on_of_nodup_map hnodup he he' hv)

end

/-- When no packet comes twice, a value that is submitted once is in each log at
most once, and is decided in at most one slot. -/
theorem proposals_appended_once (M : Membership N) (env : Env) (ls : List (Label V N))
    (s : Cluster N V) (h : Runs.Trace (Cluster.step M) Unduplicated (.init M env) ls s)
    (hd : (ls.filterMap Label.submitted).Nodup) :
    (∀ i, ((s.nodes i).protocol.log.map LogEntry.value).Nodup) ∧
    ∀ x ∈ s.emitted, ∀ y ∈ s.emitted, x.2.value = y.2.value → x.2.slot = y.2.slot := by
  obtain ⟨made,hmade⟩ := Ledger.trace h
  refine ⟨fun i => ?_,fun x hx y hy hxy => ?_⟩
  · rw [List.nodup_iff_getElem?_ne_getElem?]
    intro n m hlt hm heq
    rw [List.length_map] at hm
    rw [List.getElem?_map,List.getElem?_map,List.getElem?_eq_getElem (hlt.trans hm),
      List.getElem?_eq_getElem hm] at heq
    have hnm := hmade.unique hd (hmade.placed.logs i (List.getElem?_eq_getElem (hlt.trans hm)))
      (hmade.placed.logs i (List.getElem?_eq_getElem hm)) (Option.some.inj heq)
    omega
  · obtain ⟨e,he,hv⟩ := hmade.placed.emitted x hx
    obtain ⟨e',he',hv'⟩ := hmade.placed.emitted y hy
    exact hmade.unique hd he he' (hv.trans (hxy.trans hv'.symm))

/-- After the first term node `b` starts over from its storage. -/
def firstRestart : List (Label ℕ 3) := firstTerm ++ [.restart 1 ⟨1006,0⟩]

def firstRestartEnd : Cluster 3 ℕ :=
  Runs.after (Cluster.step trio) Unduplicated (.init trio ⟨0,0⟩) firstRestart (by decide +kernel)

theorem proposals_appended_once_firstRestart :
    (firstRestartEnd.nodes 1).protocol.log.map LogEntry.value = [7] ∧
      ((firstRestartEnd.nodes 1).protocol.log.map LogEntry.value).Nodup :=
  ⟨by decide +kernel,(proposals_appended_once trio ⟨0,0⟩ firstRestart firstRestartEnd
    (Runs.after_trace (by decide +kernel)) (by decide)).1 1⟩

/-! Proposals in a cluster that neither crashes nor loses packets. -/

section
variable {p q : RaftProtocol V}

theorem becomeLeader_log (env : Env) (p : RaftProtocol V) (hp : p.pendingPersistLogFrom = none) :
    p.log <+: (p.becomeLeader env).1.log := by
  by_cases h : p.pendingProposals = []
  · rw [p.becomeLeader_of_empty env h]
    exact List.prefix_rfl
  · rw [p.becomeLeader_of_batch env h hp]
    rw [p.takeOffice.appendOwn_log env p.batch]
    exact List.prefix_append _ _

def shared : List (LogEntry V) → List (LogEntry V) → ℕ
  | x :: xs, y :: ys => if x.term = y.term then shared xs ys + 1 else 0
  | _, _ => 0

/-- The suffix of the receiver's log that an `AppendEntries` replaces: what comes
after the entries on which they agree. A stale message, one to a leader of the same
term, one that does not fit and one that vouches for nothing replace nothing. -/
def replaced (p : RaftProtocol V) : Input V → List (LogEntry V)
  | .message _ (.appendEntries term _ prev prevTerm entries _) =>
    if (p.currentTerm < term ∨ p.currentTerm = term ∧ p.role ≠ .leader) ∧
        RaftProtocol.prevOk p.log prev prevTerm ∧
        RaftProtocol.startAt prev + entries.length ≠ 0 then
      p.log.drop (RaftProtocol.startAt prev +
        shared (p.log.drop (RaftProtocol.startAt prev)) entries)
    else []
  | _ => []

theorem shared_of_matches {log es : List (LogEntry V)} {start m : ℕ}
    (hm : RaftProtocol.Matches log start es m) (hlen : start + m ≤ log.length) (hle : m ≤ es.length)
    (hstop : ∀ e, es[m]? = some e → start + m < log.length →
      RaftProtocol.termAt log (start + m) ≠ e.term) :
    shared (log.drop start) es = m := by
  induction es generalizing start m with
  | nil =>
    obtain rfl : m = 0 := by simpa using hle
    cases log.drop start <;> rfl
  | cons e es ih =>
    rcases Nat.lt_or_ge start log.length with hlt | hge
    · have hterm : RaftProtocol.termAt log start = log[start].term := by
        rw [RaftProtocol.termAt,List.getElem?_eq_getElem hlt]
        rfl
      rw [List.drop_eq_getElem_cons hlt,shared,← hterm]
      cases m with
      | zero => exact if_neg (hstop e rfl hlt)
      | succ m =>
        have hrest : RaftProtocol.Matches log (start + 1) es m := by
          intro k x hk hx
          rw [Nat.add_right_comm,Nat.add_assoc]
          exact hm (k + 1) x (by omega) hx
        have hfirst : RaftProtocol.termAt log start = e.term := hm 0 e (Nat.succ_pos m) rfl
        rw [if_pos hfirst]
        congr 1
        refine ih hrest (by omega) (Nat.le_of_succ_le_succ hle) fun x hx hk => ?_
        rw [Nat.add_right_comm,Nat.add_assoc]
        exact hstop x hx (by omega)
    · obtain rfl : m = 0 := by omega
      rw [List.drop_of_length_le hge]
      rfl

/-- What an `AppendEntries` that fits leaves of the log. -/
theorem Adopted.keeps {r : RaftProtocol V} {start : ℕ} {es : List (LogEntry V)}
    (h : RaftProtocol.Adopted p start es r) {e : LogEntry V} (he : e ∈ p.log) :
    e ∈ r.log ∨ start + es.length ≠ 0 ∧ e ∈ p.log.drop (start + shared (p.log.drop start) es) := by
  -- the entries before and behind a cut
  have hsplit : ∀ n, e ∈ p.log.take n ∨ e ∈ p.log.drop n := by
    intro n
    rw [← List.mem_append,List.take_append_drop]
    exact he
  cases h with
  | kept => exact Or.inl he
  | cut h0 hlen hm =>
    have hshared : shared (p.log.drop start) es = es.length :=
      shared_of_matches hm hlen.le le_rfl fun x hx => by simp at hx
    rw [hshared]
    exact (hsplit _).imp_right fun hd => ⟨h0,hd⟩
  | extended m hlt hlen hm => exact Or.inl (List.mem_append_left _ he)
  | replaced m x hx hlen hm hne =>
    have hm' := (List.getElem?_eq_some_iff.mp hx).1
    have hshared : shared (p.log.drop start) es = m := by
      refine shared_of_matches hm hlen.le hm'.le fun y hy _ => ?_
      cases hx.symm.trans hy
      exact hne
    rw [hshared]
    refine (hsplit _).imp (List.mem_append_left _) fun hd => ⟨by omega,hd⟩

/-- An entry that a call takes out of the log is one that the message replaces. -/
theorem Clean.keeps_log (hc : Clean p) (env : Env) (input : Input V) {e : LogEntry V}
    (he : e ∈ p.log) : e ∈ (p.handle env input).1.log ∨ e ∈ replaced p input := by
  cases input with
  | propose v =>
    left
    change e ∈ (p.propose env v).1.log
    by_cases hr : p.role = .leader
    · rw [p.propose_of_leader env v hr hc.append,p.appendOwn_log env]
      exact List.mem_append_left _ he
    · obtain ⟨_,_,heq,_⟩ := p.propose_cases env v hr
      rw [heq]
      exact he
  | tick =>
    left
    change e ∈ (p.onTick env).1.log
    rcases p.onTick_cases env with heq | ⟨_,heq⟩ | ⟨_,heq⟩
    · rw [heq]
      exact he
    · rw [heq]
      exact he
    · rw [heq]
      rcases p.startElection_cases env with ⟨_,heq⟩ | ⟨_,_,_,heq⟩
      · rw [heq]
        exact (becomeLeader_log env (p.candidacy env) hc.append).subset he
      · rw [heq]
        exact he
  | message sender msg =>
    change e ∈ ((p.bumpTerm env msg).dispatch env sender msg).1.log ∨ _
    -- the message may have raised the term first
    obtain ⟨hlog,happend,htruncate,hbumped⟩ : (p.bumpTerm env msg).log = p.log ∧
        (p.bumpTerm env msg).pendingPersistLogFrom = none ∧
        (p.bumpTerm env msg).pendingTruncateFrom = none ∧
        (p.bumpTerm env msg = p ∨ ∃ t ∈ RaftProtocol.incomingTerm msg, p.currentTerm < t) := by
      rcases p.bumpTerm_cases env msg with ⟨heq,_⟩ | ⟨t,ht,hlt,heq⟩
      · rw [heq]
        exact ⟨rfl,hc.append,hc.truncate,Or.inl rfl⟩
      · rw [heq]
        exact ⟨rfl,rfl,hc.truncate,Or.inr ⟨t,ht,hlt⟩⟩
    generalize p.bumpTerm env msg = q at hlog happend htruncate hbumped
    rw [← hlog] at he
    cases msg with
    | requestVote term candidate li lt =>
      left
      change e ∈ (q.handleRequestVote env term candidate li lt).1.log
      rcases q.handleRequestVote_cases env term candidate li lt with heq | ⟨_,_,_,heq⟩
      · rw [heq]
        exact he
      · rw [heq]
        exact he
    | requestVoteResponse term granted =>
      left
      change e ∈ (q.handleRequestVoteResponse env sender term granted).1.log
      rcases q.handleRequestVoteResponse_cases env sender term granted with heq |
        ⟨_,_,_,heq | ⟨_,heq⟩⟩
      · rw [heq]
        exact he
      · rw [heq]
        exact he
      · rw [heq]
        exact (becomeLeader_log env { q with votesReceived := insert sender q.votesReceived }
          happend).subset he
    | appendEntries term leader prev prevTerm entries lc =>
      change e ∈ (q.handleAppendEntries env term leader prev prevTerm entries lc).1.log ∨ _
      rcases q.handleAppendEntries_cases env term leader prev prevTerm entries lc happend
        htruncate with ⟨_,heq⟩ | ⟨hterm,hrole,⟨_,_,_,heq⟩ | ⟨hok,r,f,hadopt,hadv,heq⟩⟩
      · rw [heq]
        exact Or.inl he
      · rw [heq]
        exact Or.inl he
      · obtain ⟨_,_,_,_,hf,_⟩ := hadv.frame
        have hflog : ({ f with pendingProposals := [] } : RaftProtocol V).log = r.log := by
          rw [hf]
        rw [heq,hflog]
        refine (Adopted.keeps hadopt he).imp_right fun ⟨h0,hd⟩ => ?_
        have haccepts : p.currentTerm < term ∨ p.currentTerm = term ∧ p.role ≠ .leader := by
          rcases hbumped with rfl | ⟨t,ht,hlt⟩
          · rcases Nat.lt_or_eq_of_le hterm with hlt | heq
            · exact Or.inl hlt
            · exact Or.inr ⟨heq,hrole heq.symm⟩
          · cases ht
            exact Or.inl hlt
        rw [hlog] at hok
        rw [replaced,if_pos ⟨haccepts,hok,h0⟩,← hlog]
        exact hd
    | appendEntriesResponse term success mi ct ci =>
      left
      change e ∈ (q.handleAppendEntriesResponse sender term success mi ct ci).1.log
      rcases q.handleAppendEntriesResponse_cases sender term success mi ct ci with heq |
        ⟨_,_,⟨_,k,_,_,heq⟩ | ⟨_,_,_,heq⟩⟩
      · rw [heq]
        exact he
      · obtain ⟨_,_,_,_,hf,_⟩ := (RaftProtocol.tryAdvanceCommit_advanced
          { q with
            matchIndex := q.matchIndex.insert sender (some k)
            nextIndex := q.nextIndex.insert sender (k + 1) }).frame
        rw [heq,hf]
        exact he
      · rw [heq]
        exact he
    | forward v hops =>
      left
      change e ∈ (q.handleForward env sender v hops).1.log
      rcases q.handleForward_cases env sender v hops with ⟨hr,heq⟩ | ⟨_,_,_,heq,_⟩
      · rw [heq,q.propose_of_leader env v hr happend,q.appendOwn_log env]
        exact List.mem_append_left _ he
      · rw [heq]
        exact he

end

/-- Nobody crashes, and every packet arrives once, in any order. -/
def Reliable (_ : Cluster N V) : Label V N → Prop
  | .act _ _ _ fate => fate = .completes
  | .repropose _ _ fate => fate = .completes
  | .deliver _ _ fate => fate = .completes
  | _ => False

instance (s : Cluster N V) (l : Label V N) : Decidable (Reliable s l) :=
  match l with
  | .act _ _ _ fate => inferInstanceAs (Decidable (fate = .completes))
  | .repropose _ _ fate => inferInstanceAs (Decidable (fate = .completes))
  | .deliver _ _ fate => inferInstanceAs (Decidable (fate = .completes))
  | .duplicate _ => isFalse id
  | .restart .. => isFalse id
  | .lose .. => isFalse id

def Cluster.Logged (s : Cluster N V) (i : Fin N) (v : V) : Prop :=
  v ∈ (s.nodes i).protocol.log.map LogEntry.value

def copied : RaftMessage V → List V
  | .appendEntries _ _ _ _ entries _ => entries.map LogEntry.value
  | _ => []

/-- `v` is in a log, in a buffer or among the lost proposals of a node, or in a
`Forward` or an `AppendEntries` on its way. -/
def Cluster.Holds (s : Cluster N V) (v : V) : Prop :=
  (∃ i, s.Logged i v) ∨ (∃ i, v ∈ (s.nodes i).keeps) ∨ v ∈ inFlight s.flight ∨
    ∃ pkt ∈ s.flight, v ∈ copied pkt.msg

/-- The message handed over is not a `Forward` past its last hop, and the values of
the entries it replaces are in the log of another node. -/
def Spares (M : Membership N) (s : Cluster N V) : Label V N → Prop
  | .deliver pos _ _ => ∀ pkt ∈ s.flight[pos]?,
      let p := (s.nodes pkt.dst).protocol
      let input := Input.message (M.ids pkt.src) pkt.msg
      dropped p input = [] ∧ ∀ e ∈ replaced p input, ∃ j, j ≠ pkt.dst ∧ s.Logged j e.value
  | _ => True

section
variable [DecidableEq V]

instance (s : Cluster N V) (i : Fin N) (v : V) : Decidable (s.Logged i v) :=
  inferInstanceAs (Decidable (v ∈ _))

instance (s : Cluster N V) (v : V) : Decidable (s.Holds v) :=
  inferInstanceAs (Decidable (_ ∨ _ ∨ _ ∨ _))

instance (M : Membership N) (s : Cluster N V) (l : Label V N) : Decidable (Spares M s l) :=
  match l with
  | .deliver pos _ _ => inferInstanceAs (Decidable (∀ pkt ∈ s.flight[pos]?, _ ∧ ∀ e ∈ _, _))
  | .act .. => isTrue trivial
  | .repropose .. => isTrue trivial
  | .restart .. => isTrue trivial
  | .lose .. => isTrue trivial
  | .duplicate .. => isTrue trivial

end

/-- A node that follows somebody follows another member. -/
def Cluster.Follows (M : Membership N) (s : Cluster N V) : Prop :=
  ∀ i, (s.nodes i).protocol.role ≠ .leader → ∀ id, (s.nodes i).protocol.leader = some id →
    ∃ j, j ≠ i ∧ M.ids j = id

section
variable {M : Membership N} {s s' : Cluster N V} {l : Label V N} {i : Fin N} {strict : Prop}
  {a : Abstract N V}

theorem Cluster.Follows.init (M : Membership N) (env : Env) :
    (Cluster.init (V := V) M env).Follows M := by
  intro i _ id hid
  have hnode : ((Cluster.init M env).nodes i).protocol = RaftProtocol.new (V := V) env (M.ids i)
      N M.config := boot_new .exact env (M.ids i) N M.config
  rw [hnode] at hid
  cases hid

theorem Cluster.Follows.handled (h : s.Follows M) (hok : ClusterOk M.roster strict a s) {env : Env}
    {input : Input V} {rest : List V} {fate : Fate} {flight : List (Packet N V)}
    (hw : s.Wakes M l i env input rest fate flight)
    (hr : ((s.nodes i).protocol.handle env input).1.role ≠ .leader) {id : NodeId}
    (hid : ((s.nodes i).protocol.handle env input).1.leader = some id) :
    ∃ j, j ≠ i ∧ M.ids j = id := by
  rcases (hok.nodes i).synced.clean.led env input hr id hid with ⟨hrole,hl⟩ | ⟨_,_,_,_,_,_,hmsg⟩
  · exact h i hrole id hl
  · obtain ⟨pkt,hpkt,hdst,hm,_⟩ := hw.flight.2 _ _ hmsg
    obtain ⟨hne,hb⟩ := hok.packets pkt (hok.flight pkt hpkt)
    rw [hm] at hb
    exact ⟨pkt.src,hdst ▸ hne,hb.1⟩

theorem Cluster.Follows.wakes (h : s.Follows M) (hok : ClusterOk M.roster strict a s) {env : Env}
    {input : Input V} {rest : List V} {flight : List (Packet N V)}
    (hw : s.Wakes M l i env input rest .completes flight) :
    ({ s with flight := flight }.take M i env input rest .completes).Follows M := by
  intro j hr id hid
  by_cases hj : j = i
  · subst hj
    obtain ⟨_,hfinal⟩ := turn_final .exact env (s.nodes j).protocol input
    simp only [Cluster.take,Function.update_self,RaftNode.after,hfinal] at hr hid
    exact h.handled hok hw hr hid
  · simp only [Cluster.take,Function.update_of_ne hj] at hr hid
    exact h j hr id hid

/-- What a turn that completes does with a token: it stays, it is sent, it has
become an entry, or it is dropped. -/
theorem Cluster.Follows.token (h : s.Follows M) (hok : ClusterOk M.roster strict a s) {env : Env}
    {input : Input V} {rest : List V} {fate : Fate} {flight : List (Packet N V)}
    (hw : s.Wakes M l i env input rest fate flight) {v : V}
    (hv : v ∈ (s.nodes i).protocol.waiting ++ rest ++ input.offered) :
    let t := turn .exact env (s.nodes i).protocol input
    v ∈ t.final.waiting ++ (rest ++ t.lost) ∨ v ∈ inFlight (t.outgoing.flatMap (M.route i)) ∨
      v ∈ t.handled.log.map LogEntry.value ∨ v ∈ dropped (s.nodes i).protocol input := by
  intro t
  have hc := (hok.nodes i).synced.clean.custody env input
  have hkeeps : ∀ v, v ∈ t.handled.waiting ++ rest → v ∈ t.final.waiting ++ (rest ++ t.lost) :=
    fun v hv => (turn_keeps .exact env (s.nodes i).protocol input rest).mem_iff.mpr hv
  have hmoved : v ∈ rest ∨ v ∈ t.handled.waiting ++ passedOn t.outgoing ++
      (born (s.nodes i).protocol t.handled).map LogEntry.value ++
        dropped (s.nodes i).protocol input := by
    rw [List.mem_append,List.mem_append] at hv
    rcases hv with (hv | hv) | hv
    · exact Or.inr (hc.proposals.mem_iff.mpr (List.mem_append_left _ hv))
    · exact Or.inl hv
    · exact Or.inr (hc.proposals.mem_iff.mpr (List.mem_append_right _ hv))
  rcases hmoved with hv | hv
  · exact Or.inl (hkeeps v (List.mem_append_right _ hv))
  rw [List.mem_append,List.mem_append,List.mem_append] at hv
  rcases hv with ((hv | hv) | hv) | hv
  · exact Or.inl (hkeeps v (List.mem_append_left _ hv))
  · obtain ⟨out,hout,hv⟩ := List.mem_flatMap.mp hv
    obtain ⟨hr,id,hid,htarget⟩ := hc.addressed out hout (List.ne_nil_of_mem hv)
    obtain ⟨j,hj,rfl⟩ := h.handled hok hw hr hid
    have hroute : (⟨i,j,out.message⟩ : Packet N V) ∈ M.route i out := by
      simp [Membership.route,htarget,Membership.addressed,hj]
    exact Or.inr (Or.inl (List.mem_flatMap.mpr ⟨_,List.mem_flatMap.mpr ⟨out,hout,hroute⟩,hv⟩))
  · obtain ⟨e,he,rfl⟩ := List.mem_map.mp hv
    unfold born at he
    split at he
    · exact Or.inr (Or.inr (Or.inl (List.mem_map_of_mem (List.mem_of_mem_drop he))))
    · cases he
  · exact Or.inr (Or.inr (Or.inr hv))

theorem Turn.sent_all (A : Adapter V V) (t : Turn V V) :
    (t.effects A).filterMap Effect.sent = t.outgoing := by
  have h := t.sent_cut A (t.effects A).length
  rw [List.take_length] at h
  rw [h,List.take_of_length_le (by simp [Turn.effects])]

def Cluster.Kept (s : Cluster N V) (v : V) : Prop :=
  (∃ i, s.Logged i v) ∨ (∃ i, v ∈ (s.nodes i).keeps) ∨ v ∈ inFlight s.flight

theorem Reliable.completes {env : Env} {input : Input V} {rest : List V} {fate : Fate}
    {flight : List (Packet N V)} (hl : Reliable s l)
    (hw : s.Wakes M l i env input rest fate flight) : fate = .completes := by
  cases hw with
  | act => exact hl
  | repropose => exact hl
  | deliver => exact hl

/-- What a step that meets the condition drops is nothing, or in another log. -/
theorem Spares.wakes {env : Env} {input : Input V} {rest : List V} {fate : Fate}
    {flight : List (Packet N V)} (hl : Spares M s l) (hs : Synced .exact (s.nodes i))
    (hw : s.Wakes M l i env input rest fate flight) :
    dropped (s.nodes i).protocol input = [] ∧ ∀ v, s.Logged i v →
      v ∈ ((s.nodes i).protocol.handle env input).1.log.map LogEntry.value ∨
        ∃ j, j ≠ i ∧ s.Logged j v := by
  have hspared : dropped (s.nodes i).protocol input = [] ∧
      ∀ e ∈ replaced (s.nodes i).protocol input, ∃ j, j ≠ i ∧ s.Logged j e.value := by
    cases hw with
    | @act _ _ input =>
      cases input with
      | none => exact ⟨rfl,List.forall_mem_nil _⟩
      | some v => exact ⟨rfl,List.forall_mem_nil _⟩
    | repropose => exact ⟨rfl,List.forall_mem_nil _⟩
    | deliver hpkt => exact hl _ hpkt
  refine ⟨hspared.1,fun v hv => ?_⟩
  obtain ⟨e,he,rfl⟩ := List.mem_map.mp hv
  exact (hs.clean.keeps_log env input he).imp (List.mem_map_of_mem) (hspared.2 e)

theorem Cluster.Kept.wakes (hf : s.Follows M) (hok : ClusterOk M.roster strict a s) {env : Env}
    {input : Input V} {rest : List V} {flight : List (Packet N V)}
    (hw : s.Wakes M l i env input rest .completes flight) (hl : Spares M s l) {v : V}
    (hv : s.Kept v ∨ l.submitted = some v) :
    ({ s with flight := flight }.take M i env input rest .completes).Kept v := by
  obtain ⟨hdrop,hspared⟩ := hl.wakes (hok.nodes i).synced hw
  set t := turn .exact env (s.nodes i).protocol input with ht
  set s' := { s with flight := flight }.take M i env input rest .completes with hs'
  have hself : s'.nodes i = (s.nodes i).after .exact env t rest .completes := Function.update_self ..
  have hother : ∀ {j}, j ≠ i → s'.nodes j = s.nodes j := fun hj => Function.update_of_ne hj ..
  have hlog : (s'.nodes i).protocol.log = t.handled.log := by
    obtain ⟨_,hfinal⟩ := turn_final .exact env (s.nodes i).protocol input
    rw [hself,RaftNode.after]
    simp only
    rw [ht,hfinal]
    rfl
  have hflight : s'.flight = flight ++ t.outgoing.flatMap (M.route i) := by
    rw [hs',Cluster.take]
    simp only [Fate.cut]
    rw [Turn.sent_all]
  have hlogged : ∀ j, j ≠ i → s.Logged j v → s'.Kept v := fun j hj hv =>
    Or.inl ⟨j,by rwa [Cluster.Logged,hother hj]⟩
  have hnew : v ∈ t.handled.log.map LogEntry.value → s'.Kept v := fun hv =>
    Or.inl ⟨i,by rwa [Cluster.Logged,hlog]⟩
  -- a token of node `i`, or one on the links
  have htoken : v ∈ (s.nodes i).keeps ∨ v ∈ inFlight s.flight ∨ l.submitted = some v →
      s'.Kept v := by
    intro hv
    have hmem : v ∈ ((s.nodes i).protocol.waiting ++ rest ++ input.offered) ∨
        v ∈ inFlight flight := by
      have hset := congrArg (v ∈ ·) hw.handed
      simp only [Multiset.mem_add,Multiset.mem_coe,Option.mem_toList] at hset
      simpa [or_assoc] using hset.mpr (or_assoc.mpr hv)
    rcases hmem with hv | hv
    · rcases hf.token hok hw hv with hv | hv | hv | hv
      · refine Or.inr (Or.inl ⟨i,?_⟩)
        rw [hself]
        exact hv
      · refine Or.inr (Or.inr ?_)
        rw [hflight,inFlight_append]
        exact List.mem_append_right _ hv
      · exact hnew hv
      · rw [hdrop] at hv
        cases hv
    · refine Or.inr (Or.inr ?_)
      rw [hflight,inFlight_append]
      exact List.mem_append_left _ hv
  rcases hv with (⟨j,hv⟩ | ⟨j,hv⟩ | hv) | hv
  · by_cases hj : j = i
    · subst hj
      rcases hspared v hv with hv | ⟨k,hk,hv⟩
      · exact hnew hv
      · exact hlogged k hk hv
    · exact hlogged j hj hv
  · by_cases hj : j = i
    · exact htoken (Or.inl (hj ▸ hv))
    · exact Or.inr (Or.inl ⟨j,by rwa [hother hj]⟩)
  · exact htoken (Or.inr (Or.inl hv))
  · exact htoken (Or.inr (Or.inr hv))

end

/-- In a crash-free run over reliable links, as long as no `Forward` runs out of
hops and no entry is dropped from the last log that has it, every value
submitted is in a log, in a buffer or on its way. -/
theorem no_proposal_lost_of_spares (M : Membership N) (env : Env) (ls : List (Label V N))
    (s : Cluster N V)
    (h : Runs.Trace (Cluster.step M) (fun s l => Reliable s l ∧ Spares M s l) (.init M env) ls s)
    (v : V) (hv : v ∈ ls.filterMap Label.submitted) : s.Holds v := by
  have hall : s.Follows M ∧ ∀ v ∈ ls.filterMap Label.submitted, s.Kept v := by
    clear hv
    induction h with
    | start => exact ⟨.init M env,nofun⟩
    | @next s s' l ls hrun hl hs ih =>
      obtain ⟨hf,hkept⟩ := ih
      obtain ⟨a,hok⟩ := reaches_ok False False.elim hrun.reaches
      rcases Cluster.step_cases hs with ⟨i,env',input,rest,fate,flight,hw,rfl⟩ | ⟨i,env',rfl,_⟩ |
        ⟨pos,rfl,_⟩ | ⟨pos,pkt,rfl,_,_⟩
      · obtain rfl := hl.1.completes hw
        refine ⟨hf.wakes hok hw,fun v hv => .wakes hf hok hw hl.2 ?_⟩
        rw [List.filterMap_append,List.mem_append] at hv
        exact hv.imp (hkept v) fun hv => by simpa using hv
      · exact hl.1.elim
      · exact hl.1.elim
      · exact hl.1.elim
  exact (hall.2 v hv).imp id (Or.imp id Or.inl)

/-- A proposal at a follower, on its way to the leader. -/
def forwarding : List (Label ℕ 3) := firstTerm ++ [submitAt 1006 1 9]

def forwardingEnd : Cluster 3 ℕ :=
  Runs.after (Cluster.step trio) (fun s l => Reliable s l ∧ Spares trio s l) (.init trio ⟨0,0⟩)
    forwarding (by decide +kernel)

theorem no_proposal_lost_forwarding : inFlight forwardingEnd.flight = [9] ∧ forwardingEnd.Holds 9 :=
  ⟨by decide +kernel,no_proposal_lost_of_spares trio ⟨0,0⟩ forwarding forwardingEnd
    (Runs.after_trace (by decide +kernel)) 9 (by decide)⟩

/-- Node `a` takes 7 into its log and is deposed before anybody accepts it; the
new leader's first entry takes its place. -/
def superseded : List (Label ℕ 3) :=
  [tickAt 1000 0,handAt 1001 0,handAt 1002 1,submitAt 1003 0 7,tickAt 2000 1,handAt 2001 6,
    handAt 2002 6,handAt 2003 3,handAt 2004 3,submitAt 2005 1 8,handAt 2006 8]

def supersededEnd : Cluster 3 ℕ :=
  Runs.after (Cluster.step trio) Reliable (.init trio ⟨0,0⟩) superseded (by decide +kernel)

theorem proposal_lost_when_superseded :
    Runs.Trace (Cluster.step trio) Reliable (.init trio ⟨0,0⟩) superseded supersededEnd ∧
      superseded.filterMap Label.submitted = [7,8] ∧ ¬ supersededEnd.Holds 7 :=
  ⟨Runs.after_trace (by decide +kernel),by decide,by decide +kernel⟩

end Raft
end Daccord
