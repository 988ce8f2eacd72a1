import Daccord.PaxosRestart
import Daccord.PaxosSums

/-! Slots of one Paxos node, over all its lives. `next_slot` is a `u64`; here its
additions wrap around, as they do in a release build. -/
namespace Daccord
namespace Paxos

variable {V : Type} {N : ℕ}

/-- `u64::MAX + 1`. -/
def slotLimit : ℕ := 2 ^ 64

def Reply.wrapped (r : Reply V) : Reply V :=
  ({ r.1 with nextSlot := r.1.nextSlot % slotLimit },r.2)

theorem Reply.wrapped_eq {r : Reply V} (h : r.1.nextSlot < slotLimit) : r.wrapped = r := by
  unfold Reply.wrapped
  rw [Nat.mod_eq_of_lt h]

structure Allocation where
  slot : ℕ
  decided : Bool
  deriving DecidableEq

def PaxosProtocol.nextAllocation (p : PaxosProtocol V) : Allocation :=
  ⟨p.nextSlot,Decidable.decide (p.nextSlot ∈ p.decidedSlots)⟩

section
variable [DecidableEq V]

def PaxosMessage.slots : PaxosMessage V → List ℕ
  | .prepare slot _ | .promise slot _ _ | .accept slot _ _ | .accepted slot _ _
  | .decide slot _ | .nackPrepare slot _ _ | .nackAccept slot _ _ => [slot]
  | .prepareLeader _ sinceSlot => [sinceSlot]
  | .promiseLeader _ accepted => accepted.map Prod.fst
  | .forward _ | .heartbeat _ | .nackLeader _ _ => []

namespace PaxosProtocol

def due (env : PaxosEnv) (p : PaxosProtocol V) : Reply V :=
  let r := runAll (retryProposal env) p (p.getRetryableProposals env)
  let r := r.andThen (getDecisionRebroadcasts env)
  if p.multi then r.andThen fun p =>
    let r : Reply V := if p.shouldSendHeartbeat env then p.makeHeartbeat env else (p,[])
    r.andThen fun p =>
      let p := p.checkElectionTimeout env
      if p.checkLeaderTimeout env then p.startElection env else (p,[])
  else r

def taken (env : PaxosEnv) (p : PaxosProtocol V) : PaxosProtocol V :=
  { p with forwardedProposals := p.forwardedProposals.filter fun f => env.now - f.sentAt < 1000 }

theorem onTick_eq (env : PaxosEnv) (p : PaxosProtocol V) : p.onTick env =
    if p.multi then (p.due env).andThen fun p =>
      runAll (fun value p => p.innerPropose env value) (p.taken env) (p.timedOut env)
    else p.due env := by
  unfold onTick due
  by_cases hm : p.multi
  · simp only [hm,if_true]
    simp only [onTickMulti,handleForwardedProposalTimeouts,taken,Reply.andThen,List.append_assoc]
  · simp only [hm,Bool.false_eq_true,if_false]

/-- `on_tick` in `u64` arithmetic: the loop over the forwarded proposals adds to
`next_slot` again and again. -/
def onTickWrapped (env : PaxosEnv) (p : PaxosProtocol V) : Reply V :=
  let r := (p.due env).wrapped
  if p.multi then r.andThen fun p =>
    runAll (fun value p => (p.innerPropose env value).wrapped) (p.taken env) (p.timedOut env)
  else r

/-- `handle` in `u64` arithmetic. Outside `on_tick` a call adds to `next_slot` at
most once before it reads it again. -/
def handleWrapped (env : PaxosEnv) (p : PaxosProtocol V) : Input V → Reply V
  | .tick => p.onTickWrapped env
  | input => (p.handle env input).wrapped

def allocating (env : PaxosEnv) (p : PaxosProtocol V) : List V → List Allocation
  | [] => []
  | value :: values =>
    p.nextAllocation :: allocating env (p.innerPropose env value).wrapped.1 values

def allocations (env : PaxosEnv) (p : PaxosProtocol V) : Input V → List Allocation
  | .propose _ => if p.forwards then [] else [p.nextAllocation]
  | .message _ (.forward _) => if p.multi && p.isLeader then [p.nextAllocation] else []
  | .message .. => []
  | .tick =>
    if p.multi then
      let q := (p.due env).wrapped.1
      (q.taken env).allocating env (q.timedOut env)
    else []

end PaxosProtocol

variable {p q r : PaxosProtocol V} {env : PaxosEnv}

omit [DecidableEq V] in
theorem Poised.lax (h : Tidy p) (n : ℕ) : Poised .lax n p := ⟨h,nofun,nofun,Nat.zero_le _⟩

theorem Moves.due (h : Tidy p) : Moves .lax env .tick p (p.due env).1 (p.due env).2 := by
  have hretry : ∀ slot (q : PaxosProtocol V), Tidy q → Moves .lax env .tick q
      (q.retryProposal env slot).1 (q.retryProposal env slot).2 ∧
        Tidy (q.retryProposal env slot).1 := by
    intro slot q ht
    have hm : Moves .lax env .tick q (q.retryProposal env slot).1 (q.retryProposal env slot).2 :=
      .retryProposal slot nofun
    exact ⟨hm,hm.tidy ht⟩
  obtain ⟨hretries,ht⟩ := Moves.runAll (fun _ q => Tidy q) (fun slot _ q => hretry slot q)
    (l := p.getRetryableProposals env) h
  unfold PaxosProtocol.due
  generalize Paxos.runAll (PaxosProtocol.retryProposal env) p (p.getRetryableProposals env) = retries
    at hretries ht
  have hresend : Moves .lax env .tick retries.1 _ _ := .getDecisionRebroadcasts ht
  have hboth := hretries.trans hresend
  simp only
  split
  · rename_i hm
    have hq := hboth.keeps h
    obtain ⟨hbeat,_⟩ := @Moves.heartbeatDue _ _ .lax .tick
      (retries.1.getDecisionRebroadcasts env).1 env
    have hbeat' := hbeat.keeps hq.tidy
    have helect : Moves .lax env .tick _ _ _ ∧ _ := Moves.electionDue (Poised.lax hbeat'.tidy _)
      (hbeat'.multi.trans (hq.multi.trans hm)) (fun h => h.elim False.elim False.elim) rfl
    exact hboth.trans (hbeat.trans helect.1)
  · exact hboth

theorem Moves.innerPropose_lax (p : PaxosProtocol V) (env : PaxosEnv) (input : Input V)
    (value : V) : Moves .lax env input p (p.innerPropose env value).1
      (p.innerPropose env value).2 := .innerPropose trivial nofun nofun

omit [DecidableEq V] in
theorem Tidy.taken (h : Tidy p) (env : PaxosEnv) : Tidy (p.taken env) := by
  have hframe : Frame p (p.taken env) :=
    { Frame.refl p with forwardedProposals := fun _ => List.mem_of_mem_filter }
  exact (Keeps.frame h hframe).tidy

theorem Moves.proposals (env : PaxosEnv) (h : Tidy p) (values : List V) :
    Moves .lax env .tick p (Paxos.runAll (fun value p => p.innerPropose env value) p values).1
      (Paxos.runAll (fun value p => p.innerPropose env value) p values).2 := by
  refine (Moves.runAll (fun _ q => Tidy q) (fun value _ q hq => ?_) h).1
  have hm := Moves.innerPropose_lax q env .tick value
  exact ⟨hm,hm.tidy hq⟩

structure Allocates (p : PaxosProtocol V) (as : List Allocation) (q : PaxosProtocol V) : Prop where
  undecided : ∀ a ∈ as, a.decided = false
  from_le : ∀ a ∈ as, p.nextSlot ≤ a.slot
  lt_next : ∀ a ∈ as, a.slot < q.nextSlot
  distinct : (as.map Allocation.slot).Nodup

omit [DecidableEq V] in
theorem Allocates.nil (p q : PaxosProtocol V) : Allocates p [] q := ⟨nofun,nofun,nofun,.nil⟩

omit [DecidableEq V] in
theorem Allocates.cons {a : List Allocation} (hp : Tidy p) (hlt : p.nextSlot < q.nextSlot)
    (h : Allocates q a r) (hle : q.nextSlot ≤ r.nextSlot) :
    Allocates p (p.nextAllocation :: a) r := by
  have hnew : p.nextAllocation.decided = false := by
    refine decide_eq_false fun hd => ?_
    exact absurd (hp.decided_lt hd) (lt_irrefl _)
  refine ⟨?_,?_,?_,List.nodup_cons.mpr ⟨?_,h.distinct⟩⟩
  · rintro b (_ | ⟨_,hb⟩)
    · exact hnew
    · exact h.undecided b hb
  · rintro b (_ | ⟨_,hb⟩)
    · exact le_rfl
    · exact hlt.le.trans (h.from_le b hb)
  · rintro b (_ | ⟨_,hb⟩)
    · exact hlt.trans_le hle
    · exact h.lt_next b hb
  · intro hmem
    obtain ⟨b,hb,hs⟩ := List.mem_map.mp hmem
    have hge := h.from_le b hb
    rw [hs] at hge
    exact absurd hlt hge.not_gt

omit [DecidableEq V] in
theorem Allocates.after {a : List Allocation} (h : Allocates q a r)
    (hle : p.nextSlot ≤ q.nextSlot) : Allocates p a r :=
  ⟨h.undecided,fun b hb => hle.trans (h.from_le b hb),h.lt_next,h.distinct⟩

/-- As long as nothing overflows the loop runs as it would on natural numbers. -/
theorem proposals_wrapped (env : PaxosEnv) (values : List V) {p : PaxosProtocol V} (h : Tidy p)
    (hlt : (runAll (fun value p => p.innerPropose env value) p values).1.nextSlot < slotLimit) :
    runAll (fun value p => (p.innerPropose env value).wrapped) p values =
        runAll (fun value p => p.innerPropose env value) p values ∧
      Allocates p (p.allocating env values)
        (runAll (fun value p => p.innerPropose env value) p values).1 := by
  induction values generalizing p with
  | nil => exact ⟨rfl,.nil p p⟩
  | cons value values ih =>
    have hq := (Moves.innerPropose_lax p env .tick value).tidy h
    have hle := (Moves.proposals env hq values).nextSlot_le hq
    have hone : (p.innerPropose env value).wrapped = p.innerPropose env value :=
      Reply.wrapped_eq (hle.trans_lt hlt)
    obtain ⟨heq,ha⟩ := ih hq hlt
    have hnext : p.nextSlot < (p.innerPropose env value).1.nextSlot := by
      rw [(Beyond.innerPropose p env value).nextSlot]
      exact Nat.lt_succ_self _
    refine ⟨?_,?_⟩
    · simp only [runAll]
      rw [hone,heq]
    · rw [PaxosProtocol.allocating,hone]
      exact .cons h hnext ha hle

theorem handleWrapped_eq (env : PaxosEnv) (input : Input V) (h : Tidy p)
    (hlt : (p.handle env input).1.nextSlot < slotLimit) :
    p.handleWrapped env input = p.handle env input ∧
      Allocates p (p.allocations env input) (p.handle env input).1 := by
  have hone : ∀ value, Allocates p [p.nextAllocation] (p.innerPropose env value).1 := by
    intro value
    refine .cons h ?_ (.nil _ _) le_rfl
    rw [(Beyond.innerPropose p env value).nextSlot]
    exact Nat.lt_succ_self _
  cases input with
  | propose value =>
    refine ⟨Reply.wrapped_eq hlt,?_⟩
    change Allocates p (if p.forwards then [] else [p.nextAllocation]) (p.propose env value).1
    split
    · exact .nil _ _
    · rename_i hf
      rw [PaxosProtocol.propose_of_not_forwards hf]
      exact hone value
  | message sender msg =>
    refine ⟨Reply.wrapped_eq hlt,?_⟩
    cases msg with
    | forward value =>
      simp only [PaxosProtocol.allocations,PaxosProtocol.handle,PaxosProtocol.handleMessage,
        PaxosProtocol.handleForward,Bool.and_eq_true]
      by_cases hl : p.multi = true ∧ p.isLeader = true
      · rw [if_pos hl,if_pos hl.1,if_pos hl.2]
        exact hone value
      · rw [if_neg hl]
        exact .nil _ _
    | _ => exact .nil _ _
  | tick =>
    change (p.onTick env).1.nextSlot < slotLimit at hlt
    change p.onTickWrapped env = p.onTick env ∧ Allocates p _ (p.onTick env).1
    rw [PaxosProtocol.onTick_eq] at hlt ⊢
    have hdue : Moves .lax env .tick p (p.due env).1 _ := Moves.due h
    have hfrom := hdue.nextSlot_le h
    unfold PaxosProtocol.onTickWrapped PaxosProtocol.allocations
    by_cases hm : p.multi = true
    · simp only [hm,if_true] at hlt ⊢
      have ht := (hdue.tidy h).taken env
      have hle := (Moves.proposals env ht ((p.due env).1.timedOut env)).nextSlot_le ht
      have hone : (p.due env).wrapped = p.due env := Reply.wrapped_eq (hle.trans_lt hlt)
      obtain ⟨heq,ha⟩ := proposals_wrapped env ((p.due env).1.timedOut env) ht hlt
      rw [hone]
      refine ⟨?_,ha.after hfrom⟩
      simp only [Reply.andThen]
      rw [heq]
    · simp only [hm] at hlt ⊢
      exact ⟨Reply.wrapped_eq hlt,.nil _ _⟩

omit [DecidableEq V] in
theorem Spans.officed {b : ℕ} (h : Spans b p) (hn : q.nextSlot = p.nextSlot)
    (hi : q.instances = p.instances) (he : q.election = p.election ∨ q.election = none) :
    Spans b q := by
  refine ⟨hn ▸ h.next,hi ▸ h.slots,fun {e} hq => ?_⟩
  rcases he with he | he
  · exact h.reports (he.symm.trans hq)
  · cases he.symm.trans hq

theorem Spans.handlePromiseLeader {b : ℕ} (h : Spans b p) (env : PaxosEnv) (sender : NodeId)
    (pn : ProposalNumber) {accepted : List (ℕ × ProposalNumber × V)}
    (ha : ∀ r ∈ accepted, r.1 < b) :
    Spans b (p.handlePromiseLeader env sender pn accepted).1 := by
  unfold PaxosProtocol.handlePromiseLeader
  split
  · exact h
  · rename_i e he
    have hpolled : Spans b { p with election := some { e with
        promisesReceived := insert sender e.promisesReceived
        accepted := e.accepted ++ accepted } } := by
      refine ⟨h.next,h.slots,?_⟩
      rintro e' ⟨⟩ r hr
      exact (List.mem_append.mp hr).elim (h.reports he r) (ha r)
    split
    · simp only
      split
      · exact (hpolled.completeLeaderElection env).1
      · exact hpolled
    · exact h

theorem Spans.handleMessage {b : ℕ} (h : Spans b p) (sender : NodeId) (msg : PaxosMessage V)
    (hslots : ∀ slot ∈ PaxosMessage.slots msg, slot < b)
    (hnext : (∃ value, msg = .forward value) → p.leads → p.nextSlot < b) :
    Spans b (p.handleMessage env sender msg).1 := by
  cases msg with
  | prepare slot pn => exact h.touches (.handlePrepare p sender slot pn) (hslots slot (.head _))
  | promise slot pn accepted =>
    exact h.touches (.handlePromise p env sender slot pn accepted) (hslots slot (.head _))
  | accept slot pn value =>
    exact h.touches (.handleAccept p sender slot pn value) (hslots slot (.head _))
  | accepted slot pn value =>
    exact h.touches (.handleAccepted p env sender slot pn value) (hslots slot (.head _))
  | decide slot value =>
    exact h.touches (.handleDecide p env sender slot value) (hslots slot (.head _))
  | nackPrepare slot pn hp => exact h.touches (.handleNack p env slot hp) (hslots slot (.head _))
  | nackAccept slot pn hp => exact h.touches (.handleNack p env slot hp) (hslots slot (.head _))
  | forward value =>
    simp only [PaxosProtocol.handleMessage,PaxosProtocol.handleForward]
    split
    · rename_i hm
      split
      · rename_i hl
        exact h.touches (.innerPropose p env value) (hnext ⟨value,rfl⟩ ⟨hm,hl⟩)
      · exact h
    · exact h
  | heartbeat term =>
    simp only [PaxosProtocol.handleMessage,PaxosProtocol.handleHeartbeat,
      PaxosProtocol.updateLeaderContact]
    split
    · split
      · split
        · split
          · exact h.officed rfl rfl (Or.inl rfl)
          · exact h.officed rfl rfl (Or.inl rfl)
        · exact h.officed rfl rfl (Or.inl rfl)
      · exact h
    · exact h
  | prepareLeader pn since =>
    have hsubmit : Spans b (p.submit env sender pn) := by
      have hyield : ∀ q : PaxosProtocol V, Spans b q → Spans b (q.yieldElection pn) := by
        intro q hq
        unfold PaxosProtocol.yieldElection
        split
        · split
          · exact hq.officed rfl rfl (Or.inr rfl)
          · exact hq
        · exact hq
      unfold PaxosProtocol.submit
      refine hyield _ ?_
      split
      · exact h.officed rfl rfl (Or.inl rfl)
      · exact h.officed rfl rfl (Or.inl rfl)
    simp only [PaxosProtocol.handleMessage,PaxosProtocol.handlePrepareLeader]
    split
    · split
      · exact hsubmit
      · split
        · exact hsubmit
        · exact h
    · exact h
  | promiseLeader pn accepted =>
    simp only [PaxosProtocol.handleMessage]
    split
    · exact h.handlePromiseLeader env sender pn fun r hr => hslots _ (List.mem_map_of_mem hr)
    · exact h
  | nackLeader pn hp =>
    simp only [PaxosProtocol.handleMessage,PaxosProtocol.handleNackLeader]
    split
    · split
      · exact h.officed rfl rfl (Or.inr rfl)
      · exact h.officed rfl rfl (Or.inr rfl)
    · exact h

omit [DecidableEq V] in
theorem Spans.heartbeatDue {b : ℕ} (h : Spans b p) :
    Spans b (if p.shouldSendHeartbeat env then p.makeHeartbeat env else (p,[])).1 := by
  unfold PaxosProtocol.makeHeartbeat
  split
  · split
    · exact h.officed rfl rfl (Or.inl rfl)
    · exact h
  · exact h

theorem Spans.electionDue {b : ℕ} (h : Spans b p) :
    Spans b (if (p.checkElectionTimeout env).checkLeaderTimeout env then
      (p.checkElectionTimeout env).startElection env else (p.checkElectionTimeout env,[])).1 := by
  have hover : Spans b (p.checkElectionTimeout env) := by
    unfold PaxosProtocol.checkElectionTimeout
    split
    · exact h
    · split
      · exact h.officed rfl rfl (Or.inr rfl)
      · exact h
  generalize p.checkElectionTimeout env = q at hover
  split
  · have hcampaign : Spans b (q.campaign env) := .campaign hover.next hover.slots
    unfold PaxosProtocol.startElection
    simp only
    split
    · exact (hcampaign.completeLeaderElection env).1
    · exact hcampaign
  · exact hover

/-- Before it comes to the forwarded proposals a tick works on slots that the node knows. -/
theorem Spans.due {b : ℕ} (h : Spans b p) : Spans b (p.due env).1 := by
  have hretried : Spans b
      (runAll (PaxosProtocol.retryProposal env) p (p.getRetryableProposals env)).1 := by
    refine (runAll_rest (fun rest q => Spans b q ∧ ∀ slot ∈ rest, slot < b) ?_
      ⟨h,fun slot hs => ?_⟩).1
    · rintro slot rest q ⟨hq,hrest⟩
      exact ⟨hq.touches (.retryProposal q env slot) (hrest slot (.head _)),
        fun slot hs => hrest slot (.tail _ hs)⟩
    · have hkey := (List.mem_insertionSort _).mp (List.mem_of_mem_filter hs)
      exact h.slots (AList.mem_keys.mpr hkey)
  unfold PaxosProtocol.due
  generalize runAll (PaxosProtocol.retryProposal env) p (p.getRetryableProposals env) = r at hretried
  have hsent : Spans b (r.1.getDecisionRebroadcasts env).1 :=
    hretried.officed rfl rfl (Or.inl rfl)
  simp only
  split
  · exact hsent.heartbeatDue.electionDue
  · exact hsent

theorem PaxosProtocol.RoomToTick.due (h : p.RoomToTick env) (ht : Tidy p) :
    (p.due env).1.RoomToTick env := by
  have hretried := (h.retries ht (p.getRetryableProposals env)).1
  unfold PaxosProtocol.due
  generalize runAll (PaxosProtocol.retryProposal env) p (p.getRetryableProposals env) = r at hretried
  have hsent : (r.1.getDecisionRebroadcasts env).1.RoomToTick env :=
    hretried.of rfl (fun hs => hs) rfl (.refl _)
  simp only
  split
  · exact hsent.heartbeatDue.1.electionDue
  · exact hsent

/-- With room for it a tick steps over no slot from `u64::MAX` on. -/
theorem Spans.onTick (h : Spans (2 ^ 64 - 1) p) (ht : Tidy p) (hroom : p.RoomToTick env) :
    Spans (2 ^ 64 - 1) (p.onTick env).1 := by
  have hdue : Spans (2 ^ 64 - 1) (p.due env).1 := h.due
  have hnext := (hroom.due ht).1
  rw [PaxosProtocol.onTick_eq]
  split
  · have htaken : Spans (2 ^ 64 - 1) ((p.due env).1.taken env) :=
      hdue.officed rfl rfl (Or.inl rfl)
    refine (runAll_rest (p := (p.due env).1.taken env) (fun (rest : List V) q =>
      Spans (2 ^ 64 - 1) q ∧ q.nextSlot + rest.length < 2 ^ 64) ?_ ⟨htaken,hnext⟩).1
    rintro value rest q ⟨hq,hlt⟩
    rw [List.length_cons] at hlt
    refine ⟨hq.touches (.innerPropose q env value) (by omega),?_⟩
    rw [(Beyond.innerPropose q env value).nextSlot]
    omega
  · exact hdue

/-- The decisions queued between `p` and `q` are for slots that `p` had not decided. -/
def Queues (p q : PaxosProtocol V) : Prop :=
  ∃ ds, q.pendingDecisions = p.pendingDecisions ++ ds ∧ (ds.map Decision.slot).Nodup ∧
    ∀ d ∈ ds, d.slot ∉ p.decidedSlots ∧ d.slot ∈ q.decidedSlots

omit [DecidableEq V] in
theorem Queues.none (h : q.pendingDecisions = p.pendingDecisions) : Queues p q :=
  ⟨[],by simpa using h,.nil,nofun⟩

omit [DecidableEq V] in
theorem Queues.trans (h : Queues p q) (h' : Queues q r) (hpq : Keeps p q) (hqr : Keeps q r) :
    Queues p r := by
  obtain ⟨ds,hds,hnd,hnew⟩ := h
  obtain ⟨es,hes,hnd',hnew'⟩ := h'
  refine ⟨ds ++ es,by rw [hes,hds,List.append_assoc],?_,fun d hd => ?_⟩
  · rw [List.map_append,List.nodup_append]
    refine ⟨hnd,hnd',?_⟩
    rintro _ hd _ he rfl
    obtain ⟨d,hd',heq⟩ := List.mem_map.mp hd
    obtain ⟨e,he',rfl⟩ := List.mem_map.mp he
    exact (hnew' e he').1 (heq ▸ (hnew d hd').2)
  · rcases List.mem_append.mp hd with hd | hd
    · exact ⟨(hnew d hd).1,hqr.mem_decided (hnew d hd).2⟩
    · exact ⟨fun hp => (hnew' d hd).1 (hpq.mem_decided hp),(hnew' d hd).2⟩

theorem Queues.conclude (env : PaxosEnv) {slot : ℕ} (hs : slot ∉ p.decidedSlots) (value : V) :
    Queues p (p.conclude env slot value).1 := by
  obtain ⟨_,_,heq⟩ := p.conclude_frame env slot value
  rw [heq]
  refine ⟨[⟨slot,value⟩],rfl,by simp,fun d hd => ?_⟩
  rw [List.mem_singleton.mp hd]
  exact ⟨hs,(AList.mem_insert _).mpr (Or.inl rfl)⟩

theorem Queues.selfAccept (env : PaxosEnv) {slot : ℕ} (hs : slot ∉ p.decidedSlots)
    (inst : PaxosInstance V) (pn : ProposalNumber) (value : V) :
    Queues p (p.selfAccept env slot inst pn value).1 := by
  unfold PaxosProtocol.selfAccept
  simp only
  split
  · exact Queues.conclude (p := (p.putInstance slot _).noteVote slot pn value) env hs value
  · exact .none rfl

theorem Move.queues {R : Rules V} {input : Input V} {out : List (Outgoing (PaxosMessage V))}
    (h : Tidy p) (hm : Move R env input p q out) : Queues p q := by
  cases hm with
  | aside hq => exact .none hq.pendingDecisions
  | phase2 hl => exact .selfAccept env (h.not_decided hl) _ _ _
  | belated _ hl => exact .conclude env (h.not_decided hl) _
  | settle _ hl => exact .conclude env (h.not_decided hl) _
  | learn _ hs => exact Queues.conclude (p := p.lose _) env hs _
  | lead =>
    exact Queues.selfAccept (p := { p with nextSlot := p.nextSlot + 1 }) env h.next_not_decided _ _ _
  | submit _ _ hfree =>
    obtain ⟨_,_,_,heq⟩ := PaxosProtocol.submit_frame h env _ hfree
    rw [heq]
    exact .none rfl
  | replay _ _ _ _ hs =>
    unfold PaxosProtocol.replayAccept
    rw [if_neg hs]
    exact .selfAccept env hs _ _ _
  | _ => exact .none rfl

theorem Moves.queues {R : Rules V} {input : Input V} {out : List (Outgoing (PaxosMessage V))}
    (h : Tidy p) (hm : Moves R env input p q out) : Queues p q := by
  induction hm with
  | nil => exact .none rfl
  | snoc hm hlast ih =>
    exact ih.trans (hlast.queues (hm.tidy h)) (hm.keeps h) (hlast.keeps (hm.tidy h))

end

/-- One node, its storage and its history: the slots taken and the slots that
`take_decisions` has returned in this life, and the slots that `save_decision`
has written in all lives. -/
structure Life (V : Type) where
  process : Process V
  allocated : List Allocation
  emitted : List ℕ
  saved : List ℕ

def Life.init (M : Membership N) (env : PaxosEnv) (id : NodeId) : Life V where
  process := ⟨.new M.multi env id N M.config,∅⟩
  allocated := []
  emitted := []
  saved := []

/-- A call, `drain_decisions` with the number of writes that succeed (`none` for
all), or a new process that recovers from the storage. -/
inductive Life.Label (V : Type)
  | call (env : PaxosEnv) (input : Input V)
  | drain (writes : Option ℕ)
  | restart (env : PaxosEnv) (incarnation : ℕ)

def written (ds : List (Decision V)) : Option ℕ → List (Decision V)
  | none => ds
  | some k => ds.take k

section
variable [DecidableEq V]

/-- The storage can hold slot `u64::MAX`, which `recover` cannot step over, only
after `next_slot` has overflowed. -/
def Life.step (M : Membership N) (s : Life V) : Life.Label V → Option (Life V)
  | .call env input =>
    let p := s.process.protocol
    some { s with
      process := { s.process with protocol := (p.handleWrapped env input).1 }
      allocated := s.allocated ++ p.allocations env input }
  | .drain writes =>
    let taken := s.process.protocol.takeDecisions
    let ds := written taken.2 writes
    some { s with
      process := ⟨taken.1,ds.foldl (fun m d => m.insert d.slot d.value) s.process.storage⟩
      emitted := s.emitted ++ taken.2.map Decision.slot
      saved := s.saved ++ ds.map Decision.slot }
  | .restart env incarnation =>
    some { s with
      process := s.process.reboot M env incarnation
      allocated := []
      emitted := [] }

/-- Messages speak of slots below `u64::MAX`. -/
def Life.InRange (_ : Life V) : Life.Label V → Prop
  | .call _ (.message _ msg) => ∀ slot ∈ PaxosMessage.slots msg, slot + 1 < slotLimit
  | _ => True

/-- There is a slot for every proposal that the call takes up: for one made or
forwarded to the leader here, and for the forwarded ones that a tick takes back. -/
def Life.NoOverflow (s : Life V) : Life.Label V → Prop
  | .call _ (.propose _) =>
    ¬ s.process.protocol.forwards → s.process.protocol.nextSlot + 1 < slotLimit
  | .call _ (.message _ (.forward _)) =>
    s.process.protocol.leads → s.process.protocol.nextSlot + 1 < slotLimit
  | .call env .tick => s.process.protocol.RoomToTick env
  | _ => True

structure Life.Ok (s : Life V) : Prop where
  tidy : Tidy s.process.protocol
  spans : Spans (slotLimit - 1) s.process.protocol
  held : ∀ slot ∈ s.process.storage, slot < slotLimit - 1
  undecided : ∀ a ∈ s.allocated, a.decided = false
  below : ∀ a ∈ s.allocated, a.slot < s.process.protocol.nextSlot
  distinct : (s.allocated.map Allocation.slot).Nodup
  once : (s.emitted ++ s.process.protocol.pendingDecisions.map Decision.slot).Nodup
  known : ∀ slot ∈ s.emitted, slot ∈ s.process.protocol.decidedSlots
  saved : (s.saved ++ s.process.protocol.pendingDecisions.map Decision.slot).Nodup
  stored : ∀ slot ∈ s.saved, slot ∈ s.process.storage ∧ slot ∈ s.process.protocol.decidedSlots

variable {M : Membership N} {s s' : Life V} {l : Life.Label V}

omit [DecidableEq V] in
theorem Life.Ok.init (M : Membership N) (env : PaxosEnv) (id : NodeId) :
    (Life.init M env id : Life V).Ok :=
  ⟨.new M.multi env id N M.config,.new _ M.multi env id N M.config,nofun,nofun,nofun,.nil,.nil,nofun,
    .nil,nofun⟩

omit [DecidableEq V] in
/-- Queued slots are new, so they do not collide with older ones. -/
theorem Queues.nodup {p q : PaxosProtocol V} (h : Queues p q) {old : List ℕ}
    (hold : (old ++ p.pendingDecisions.map Decision.slot).Nodup)
    (hknown : ∀ slot ∈ old ++ p.pendingDecisions.map Decision.slot, slot ∈ p.decidedSlots) :
    (old ++ q.pendingDecisions.map Decision.slot).Nodup := by
  obtain ⟨ds,hds,hnd,hnew⟩ := h
  rw [hds,List.map_append,← List.append_assoc,List.nodup_append]
  refine ⟨hold,hnd,?_⟩
  rintro slot hslot _ hd rfl
  obtain ⟨d,hd',rfl⟩ := List.mem_map.mp hd
  exact (hnew d hd').1 (hknown _ hslot)

/-- A call moves `next_slot` past slots that it takes, and past slots that messages
have named. -/
theorem Life.Ok.spans_call (h : s.Ok) (env : PaxosEnv) (input : Input V)
    (hin : s.InRange (.call env input)) (hno : s.NoOverflow (.call env input)) :
    Spans (slotLimit - 1) (s.process.protocol.handle env input).1 := by
  cases input with
  | propose value =>
    change Spans _ (s.process.protocol.propose env value).1
    by_cases hf : s.process.protocol.forwards
    · obtain ⟨hm,leader,hl,hne⟩ := hf
      have heq : s.process.protocol.propose env value = ({ s.process.protocol with
          forwardedProposals := s.process.protocol.forwardedProposals ++ [⟨env.now,value⟩] },
          [⟨.peer leader,.forward value⟩]) := by
        rw [Option.mem_def] at hl
        simp only [PaxosProtocol.propose,PaxosProtocol.proposeOrForward,hm,hl,if_true,if_pos hne]
      rw [heq]
      exact h.spans.officed rfl rfl (Or.inl rfl)
    · rw [PaxosProtocol.propose_of_not_forwards hf]
      exact h.spans.touches (.innerPropose _ env value) (Nat.lt_sub_of_add_lt (hno hf))
  | message sender msg =>
    refine h.spans.handleMessage sender msg (fun slot hs => Nat.lt_sub_of_add_lt (hin slot hs)) ?_
    rintro ⟨value,rfl⟩ hl
    exact Nat.lt_sub_of_add_lt (hno hl)
  | tick => exact h.spans.onTick h.tidy hno

theorem Life.Ok.call (h : s.Ok) (env : PaxosEnv) (input : Input V)
    (hin : s.InRange (.call env input)) (hno : s.NoOverflow (.call env input))
    (hs : s.step M (.call env input) = some s') :
    s'.Ok ∧ Keeps s.process.protocol s'.process.protocol := by
  have hspans := h.spans_call env input hin hno
  obtain ⟨heq,ha⟩ := handleWrapped_eq env input h.tidy (Nat.lt_of_le_pred (by decide) hspans.next)
  have hm := handle_lax env input h.tidy
  have hk := hm.keeps h.tidy
  have hq := hm.queues h.tidy
  have hpending : ∀ slot ∈ s.process.protocol.pendingDecisions.map Decision.slot,
      slot ∈ s.process.protocol.decidedSlots := by
    intro slot hslot
    obtain ⟨d,hd,rfl⟩ := List.mem_map.mp hslot
    exact mem_of_lookup (h.tidy.pending d hd)
  cases hs
  simp only [heq]
  refine ⟨⟨hk.tidy,hspans,h.held,?_,?_,?_,?_,?_,?_,?_⟩,hk⟩
  · intro a ha'
    exact (List.mem_append.mp ha').elim (h.undecided a) (ha.undecided a)
  · intro a ha'
    refine (List.mem_append.mp ha').elim (fun ha' => ?_) (ha.lt_next a)
    exact (h.below a ha').trans_le (hm.nextSlot_le h.tidy)
  · rw [List.map_append,List.nodup_append]
    refine ⟨h.distinct,ha.distinct,?_⟩
    rintro _ ha1 _ ha2 rfl
    obtain ⟨a,ha1',heq⟩ := List.mem_map.mp ha1
    obtain ⟨b,ha2',rfl⟩ := List.mem_map.mp ha2
    have h1 := h.below a ha1'
    have h2 := ha.from_le b ha2'
    omega
  · refine hq.nodup h.once fun slot hslot => ?_
    exact (List.mem_append.mp hslot).elim (h.known slot) (hpending slot)
  · exact fun slot hslot => hk.mem_decided (h.known slot hslot)
  · refine hq.nodup h.saved fun slot hslot => ?_
    exact (List.mem_append.mp hslot).elim (fun hslot => (h.stored slot hslot).2) (hpending slot)
  · exact fun slot hslot => ⟨(h.stored slot hslot).1,hk.mem_decided (h.stored slot hslot).2⟩

omit [DecidableEq V] in
theorem mem_storage {ds : List (Decision V)} {m : AList fun _ : ℕ => V} {slot : ℕ} :
    slot ∈ ds.foldl (fun m d => m.insert d.slot d.value) m ↔
      slot ∈ m ∨ slot ∈ ds.map Decision.slot := by
  induction ds generalizing m with
  | nil => simp
  | cons d ds ih =>
    rw [List.foldl_cons,ih,AList.mem_insert,List.map_cons,List.mem_cons]
    tauto

theorem Life.Ok.drain (h : s.Ok) (writes : Option ℕ)
    (hs : s.step M (.drain writes) = some s') :
    s'.Ok ∧ s'.process.protocol.decidedSlots = s.process.protocol.decidedSlots := by
  have hsub : (written s.process.protocol.pendingDecisions writes).Sublist
      s.process.protocol.pendingDecisions := by
    cases writes with
    | none => exact .refl _
    | some k => exact List.take_sublist k _
  have hpending : ∀ d ∈ s.process.protocol.pendingDecisions,
      d.slot ∈ s.process.protocol.decidedSlots := fun d hd => mem_of_lookup (h.tidy.pending d hd)
  cases hs
  refine ⟨⟨{ h.tidy with pending := nofun },{ h.spans with },fun slot hslot => ?_,h.undecided,
    h.below,h.distinct,?_,?_,?_,?_⟩,rfl⟩
  · rcases mem_storage.mp hslot with hslot | hslot
    · exact h.held slot hslot
    · obtain ⟨d,hd,rfl⟩ := List.mem_map.mp hslot
      exact (h.tidy.decided_lt (hpending d (hsub.mem hd))).trans_le h.spans.next
  · simpa [PaxosProtocol.takeDecisions] using h.once
  · intro slot hslot
    rcases List.mem_append.mp hslot with hslot | hslot
    · exact h.known slot hslot
    · obtain ⟨d,hd,rfl⟩ := List.mem_map.mp hslot
      exact hpending d hd
  · rw [PaxosProtocol.takeDecisions,List.map_nil,List.append_nil]
    exact h.saved.sublist ((hsub.map _).append_left _)
  · intro slot hslot
    rcases List.mem_append.mp hslot with hslot | hslot
    · exact ⟨mem_storage.mpr (Or.inl (h.stored slot hslot).1),(h.stored slot hslot).2⟩
    · refine ⟨mem_storage.mpr (Or.inr hslot),?_⟩
      obtain ⟨d,hd,rfl⟩ := List.mem_map.mp hslot
      exact hpending d (hsub.mem hd)

omit [DecidableEq V] in
theorem Spans.recovered {b : ℕ} {p : PaxosProtocol V} (h : Spans b p) {ds : List (ℕ × V)}
    (hds : ∀ d ∈ ds, d.1 < b) : Spans b (p.initializeFromDecisions ds) := by
  induction ds generalizing p with
  | nil => exact h
  | cons d ds ih =>
    have hd := hds d (.head _)
    refine ih (p := { p with
      decidedSlots := p.decidedSlots.insert d.1 d.2
      nextSlot := if p.nextSlot ≤ d.1 then d.1 + 1 else p.nextSlot }) ⟨?_,h.slots,h.reports⟩
      fun d hmem => hds d (.tail _ hmem)
    simp only
    split
    · exact hd
    · exact h.next

theorem Life.Ok.restart (h : s.Ok) (env : PaxosEnv) (incarnation : ℕ)
    (hs : s.step M (.restart env incarnation) = some s') : s'.Ok := by
  obtain ⟨htidy,_,hlookup⟩ := s.process.reboot_tidy M env incarnation
  obtain ⟨_,_,heq,_⟩ := PaxosProtocol.initializeFromDecisions_frame
    (s.process.storage.entries.map fun d => (d.1,d.2))
    (PaxosProtocol.new M.multi env ⟨s.process.protocol.nodeId.name,incarnation⟩ N M.config)
  have hnone : (s.process.reboot M env incarnation).protocol.pendingDecisions = [] := by
    simp only [Process.reboot,heq]
    rfl
  have hspans : Spans (slotLimit - 1) (s.process.reboot M env incarnation).protocol := by
    refine (Spans.new _ M.multi env _ N M.config).recovered fun d hd => ?_
    obtain ⟨x,hx,rfl⟩ := List.mem_map.mp hd
    exact h.held x.1 (AList.mem_keys.mpr (List.mem_map_of_mem hx))
  cases hs
  refine ⟨htidy,hspans,h.held,List.forall_mem_nil _,List.forall_mem_nil _,.nil,?_,
    List.forall_mem_nil _,?_,fun slot hslot => ⟨(h.stored slot hslot).1,?_⟩⟩
  · simp [hnone]
  · simpa [hnone] using h.saved.of_append_left
  · obtain ⟨v,hv⟩ := Option.isSome_iff_exists.mp (AList.lookup_isSome.mpr (h.stored slot hslot).1)
    exact mem_of_lookup (hlookup slot v hv)

def Life.SameLife (_ : Life V) : Life.Label V → Prop
  | .restart .. => False
  | _ => True

/-- A step spans one life forgets no decision. -/
theorem Life.Ok.step (h : s.Ok) (hin : s.InRange l) (hno : s.NoOverflow l) (hs : s.step M l = some s') :
    s'.Ok ∧ (s.SameLife l → ∀ slot v, s.process.protocol.decidedSlots.lookup slot = some v →
      s'.process.protocol.decidedSlots.lookup slot = some v) := by
  cases l with
  | call env input =>
    obtain ⟨hok,hk⟩ := h.call env input hin hno hs
    exact ⟨hok,fun _ _ _ hv => hk.decided hv⟩
  | drain writes =>
    obtain ⟨hok,hsame⟩ := h.drain writes hs
    refine ⟨hok,fun _ slot v hv => ?_⟩
    rwa [hsame]
  | restart env incarnation => exact ⟨h.restart env incarnation hs,fun hlife => hlife.elim⟩

end

/-- As long as `next_slot` does not overflow, slots are written once. -/
theorem slots_write_once [DecidableEq V] (M : Membership N) (env : PaxosEnv) (id : NodeId)
    (s : Life V) (h : Runs.Reaches (Life.step M) (fun s l => s.InRange l ∧ s.NoOverflow l)
      (.init M env id) s) :
    (∀ s', Runs.Reaches (Life.step M)
        (fun s l => (s.InRange l ∧ s.NoOverflow l) ∧ s.SameLife l) s s' →
      ∀ slot v, s.process.protocol.decidedSlots.lookup slot = some v →
        s'.process.protocol.decidedSlots.lookup slot = some v) ∧
    (∀ slot ∈ s.process.protocol.instances, slot ∉ s.process.protocol.decidedSlots) ∧
    (∀ slot ∈ s.process.protocol.decidedSlots, slot < s.process.protocol.nextSlot) ∧
    (∀ a ∈ s.allocated, a.decided = false) ∧ (s.allocated.map Allocation.slot).Nodup ∧
    s.emitted.Nodup ∧ s.saved.Nodup := by
  have hok : s.Ok := h.invariant Life.Ok (.init M env id) fun _ _ _ _ hok hl hs =>
    (hok.step hl.1 hl.2 hs).1
  refine ⟨fun s' hrun slot v hv => ?_,fun _ => hok.tidy.apart,fun _ => hok.tidy.decided_lt,
    hok.undecided,hok.distinct,hok.once.of_append_left,hok.saved.of_append_left⟩
  have hboth : s'.Ok ∧ s'.process.protocol.decidedSlots.lookup slot = some v := by
    refine hrun.invariant (fun x => x.Ok ∧ x.process.protocol.decidedSlots.lookup slot = some v)
      ⟨hok,hv⟩ ?_
    intro x l x' _ hx hl hs
    obtain ⟨hok',hkeep⟩ := hx.1.step hl.1.1 hl.1.2 hs
    exact ⟨hok',hkeep hl.2 slot v hx.2⟩
  exact hboth.2

instance (s : Life V) (l : Life.Label V) : Decidable (s.InRange l) :=
  match l with
  | .call _ (.message _ msg) =>
    inferInstanceAs (Decidable (∀ slot ∈ PaxosMessage.slots msg, slot + 1 < slotLimit))
  | .call _ (.propose _) => isTrue trivial
  | .call _ .tick => isTrue trivial
  | .drain _ => isTrue trivial
  | .restart .. => isTrue trivial

instance (s : Life V) : (l : Life.Label V) → Decidable (s.NoOverflow l)
  | .call _ (.propose _) => inferInstanceAs (Decidable (¬ s.process.protocol.forwards → _))
  | .call _ (.message _ (.forward _)) => inferInstanceAs (Decidable (s.process.protocol.leads → _))
  | .call env .tick => inferInstanceAs (Decidable (s.process.protocol.RoomToTick env))
  | .call _ (.message _ (.prepare ..)) | .call _ (.message _ (.promise ..))
  | .call _ (.message _ (.accept ..)) | .call _ (.message _ (.accepted ..))
  | .call _ (.message _ (.decide ..)) | .call _ (.message _ (.nackPrepare ..))
  | .call _ (.message _ (.nackAccept ..)) | .call _ (.message _ (.heartbeat ..))
  | .call _ (.message _ (.prepareLeader ..)) | .call _ (.message _ (.promiseLeader ..))
  | .call _ (.message _ (.nackLeader ..)) | .drain _ | .restart .. => .isTrue trivial

/-- The node learns slot 3, loses its own proposal to a crash in the drain and
proposes again. -/
def twoLives : List (Life.Label ℕ) :=
  [.call (.steady 1) (.message ⟨"b",1⟩ (.decide 3 7)),.drain none,.call (.steady 2) (.propose 5),
    .call (.steady 3) (.message ⟨"b",1⟩ (.decide 1 8)),.drain (some 0),.restart (.steady 4) 2,
    .call (.steady 5) (.message ⟨"b",1⟩ (.decide 1 8)),.drain none,.call (.steady 6) (.propose 6)]

def twoLivesEnd : Life ℕ :=
  Runs.after (Life.step (trio false)) (fun s l => s.InRange l ∧ s.NoOverflow l)
    (.init (trio false) (.steady 0) ⟨"a",1⟩) twoLives (by decide +kernel)

theorem slots_write_once_twoLives :
    (twoLivesEnd.saved = [3,1] ∧ twoLivesEnd.allocated = [⟨4,false⟩]) ∧ twoLivesEnd.saved.Nodup :=
  ⟨by decide +kernel,(slots_write_once (trio false) (.steady 0) ⟨"a",1⟩ twoLivesEnd
    (Runs.after_reaches .start (by decide +kernel))).2.2.2.2.2.2⟩

/-- Slot `u64::MAX - 1` is decided, then a value is proposed. -/
def overflowing : Life ℕ :=
  Runs.after (Life.step (trio false)) Life.InRange (.init (trio false) (.steady 0) ⟨"a",1⟩)
    [.call (.steady 1) (.message ⟨"b",1⟩ (.decide (2 ^ 64 - 2) 7)),.call (.steady 2) (.propose 5)]
    (by decide +kernel)

theorem decided_slot_above_next :
    Runs.Reaches (Life.step (trio false)) Life.InRange (.init (trio false) (.steady 0) ⟨"a",1⟩)
        overflowing ∧
      2 ^ 64 - 2 ∈ overflowing.process.protocol.decidedSlots ∧
      overflowing.process.protocol.nextSlot = 0 :=
  ⟨Runs.after_reaches .start (by decide +kernel),by decide +kernel,by decide +kernel⟩

end Paxos
end Daccord
