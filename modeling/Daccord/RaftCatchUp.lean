import Daccord.RaftSafety
import Daccord.RaftAppend

/-! Catching up: a leader and a follower exchange `AppendEntries` and its answer
until the follower has the leader's log. -/
namespace Daccord
namespace Raft

open ReplicatedLog (Grown)

variable {V : Type} {N : ℕ}

def isAppendEntries : RaftMessage V → Bool
  | .appendEntries .. => true
  | _ => false

def isAppendEntriesResponse : RaftMessage V → Bool
  | .appendEntriesResponse .. => true
  | _ => false

/-- The first message for `id` of the kind wanted. -/
def firstFor (id : NodeId) (wanted : RaftMessage V → Bool) (out : List (Outgoing (RaftMessage V))) :
    Option (RaftMessage V) :=
  (out.find? fun o => decide (o.target = .peer id) && wanted o.message).map Outgoing.message

structure Exchange (V : Type) where
  leader : RaftProtocol V
  follower : RaftProtocol V
  message : RaftMessage V

structure Round (V : Type) where
  leader : RaftProtocol V
  follower : RaftProtocol V
  answer : Option (RaftMessage V)
  next : Option (RaftMessage V)

def Round.Rejected (r : Round V) : Prop :=
  ∃ t mi ct ci, r.answer = some (.appendEntriesResponse t false mi ct ci)

def Round.Accepted (r : Round V) : Prop :=
  ∃ t mi ct ci, r.answer = some (.appendEntriesResponse t true mi ct ci)

def Exchange.heartbeat (env : Env) (leader follower : RaftProtocol V) : Option (Exchange V) :=
  (leader.broadcastHeartbeat env).2.head?.map fun o =>
    ⟨(leader.broadcastHeartbeat env).1,follower,o.message⟩

def Exchange.prev (x : Exchange V) : Option ℕ :=
  match x.message with
  | .appendEntries _ _ prev _ _ _ => prev
  | _ => none

section
variable (l f : NodeId)

def Exchange.round (x : Exchange V) (env : Env × Env) : Round V :=
  let ft := turn .exact env.1 x.follower (.message l x.message)
  match firstFor l isAppendEntriesResponse ft.outgoing with
  | none => ⟨x.leader,ft.final,none,none⟩
  | some answer =>
    let lt := turn .exact env.2 x.leader (.message f answer)
    ⟨lt.final,ft.final,some answer,firstFor f isAppendEntries lt.outgoing⟩

/-- The exchange goes on as long as the leader sends another `AppendEntries`. -/
def Exchange.next (x : Exchange V) (env : Env × Env) : Option (Exchange V) :=
  let r := x.round l f env
  r.next.map fun message => ⟨r.leader,r.follower,message⟩

/-- The last round of the exchange, one pair of environments a round. -/
def Exchange.run : List (Env × Env) → Exchange V → Option (Round V)
  | [], _ => none
  | env :: envs, x =>
    match x.next l f env with
    | some y => run envs y
    | none => some (x.round l f env)

end

namespace RaftProtocol

theorem bumpTerm_same (env : Env) (p : RaftProtocol V) (msg : RaftMessage V)
    (h : incomingTerm msg = some p.currentTerm) : p.bumpTerm env msg = p := by
  rcases p.bumpTerm_cases env msg with ⟨heq,_⟩ | ⟨t,ht,hlt,_⟩
  · exact heq
  · rw [h] at ht
    cases ht
    exact absurd hlt (lt_irrefl _)

theorem termAt_of_getElem? {log : List (LogEntry V)} {i : ℕ} {e : LogEntry V}
    (h : log[i]? = some e) : termAt log i = e.term := by simp [termAt,h]

/-- Logs of one history: the entry a follower names as conflicting keeps the
leader's last entry of that term below the refused index. -/
theorem conflict_lt {ll fl : List (LogEntry V)} {book : ℕ → List (LogEntry V)}
    (hl : Grown LogEntry.term book ll) (hf : Grown LogEntry.term book fl) {i j : ℕ}
    (hi : i < fl.length) (hj : j < ll.length) (ht : termAt ll j = termAt fl i)
    (hrej : ¬ Follows fl (some i) (termAt ll i)) : j < i := by
  by_contra hge
  have hej : ll[j]? = some ll[j] := List.getElem?_eq_getElem hj
  have hei : fl[i]? = some fl[i] := List.getElem?_eq_getElem hi
  rw [termAt_of_getElem? hej,termAt_of_getElem? hei] at ht
  have htake : ll.take (i + 1) = fl.take (i + 1) := by
    have hlj := congrArg (List.take (i + 1)) (hl j _ hej)
    rw [List.take_take,List.take_take,Nat.min_eq_left (by omega),ht] at hlj
    rw [hlj,hf i _ hei]
  have hsame : ll[i]? = fl[i]? := by
    have := congrArg (fun l : List (LogEntry V) => l[i]?) htake
    simpa [List.getElem?_take] using this
  refine hrej fun k hk => ?_
  cases hk
  exact ⟨fl[i],hei,(termAt_of_getElem? (hsame.trans hei)).symm⟩

/-- The leader rewinds to the refused index or below it. -/
theorem rewindIndex_le_refused {p : RaftProtocol V} {fl : List (LogEntry V)}
    {book : ℕ → List (LogEntry V)} (hl : Grown LogEntry.term book p.log)
    (hf : Grown LogEntry.term book fl) (sender : NodeId) {i : ℕ}
    (hrej : ¬ Follows fl (some i) (termAt p.log i)) :
    p.rewindIndex sender (conflictHint fl (some i)).1 (conflictHint fl (some i)).2 ≤ i := by
  by_cases hshort : fl.length ≤ i
  · simp only [conflictHint,hshort,if_true,rewindIndex]
    omega
  · obtain ⟨first,hfirst⟩ : ∃ first, (List.range (i + 1)).find? (fun k => termAt fl k = termAt fl i) =
        some first := by
      rw [← Option.isSome_iff_exists,List.find?_isSome]
      exact ⟨i,by simp,by simp⟩
    have hle : first ≤ i := by
      have := List.mem_range.mp (List.mem_of_find?_eq_some hfirst)
      omega
    simp only [conflictHint,hshort,if_false,hfirst,rewindIndex]
    cases hlast : (List.range p.log.length).reverse.find? fun k => termAt p.log k = termAt fl i with
    | none =>
      simp only
      omega
    | some j =>
      have hj : j < p.log.length := by
        simpa using List.mem_of_find?_eq_some hlast
      have ht : termAt p.log j = termAt fl i := by
        simpa using List.find?_some hlast
      have := conflict_lt hl hf (by omega) hj ht hrej
      simp only
      omega

end RaftProtocol

/-- Where an exchange stands: the leader of term `t` offers what follows `prev`
in its log `ll`, and the follower still has its log `fl`. -/
structure Exchange.Offers (x : Exchange V) (l : NodeId) (t : ℕ) (ll fl : List (LogEntry V))
    (prev : Option ℕ) : Prop where
  role : x.leader.role = .leader
  term : x.leader.currentTerm = t
  ident : x.leader.nodeId = l
  log : x.leader.log = ll
  behind : x.follower.currentTerm ≤ t
  follows : ¬ (t = x.follower.currentTerm ∧ x.follower.role = .leader)
  held : x.follower.log = fl
  message : ∃ prevTerm lc,
    x.message = .appendEntries t l prev prevTerm (ll.drop (RaftProtocol.startAt prev)) lc ∧
      ∀ i, prev = some i → i < ll.length ∧ prevTerm = RaftProtocol.termAt ll i

section
variable {x : Exchange V} {l f : NodeId} {t : ℕ} {ll fl : List (LogEntry V)} {prev : Option ℕ}
  {book : ℕ → List (LogEntry V)}

theorem Exchange.Offers.prev_eq (h : x.Offers l t ll fl prev) : x.prev = prev := by
  obtain ⟨_,_,hmsg,_⟩ := h.message
  rw [Exchange.prev,hmsg]

def Ready (ll fl : List (LogEntry V)) (prev : Option ℕ) : Prop :=
  ∀ i, prev = some i → RaftProtocol.Follows fl (some i) (RaftProtocol.termAt ll i)

theorem Exchange.Offers.follower_turn (h : x.Offers l t ll fl prev) (env : Env) :
    ∃ (q : RaftProtocol V) (prevTerm : ℕ) (lc : Option ℕ),
      q.currentTerm = t ∧ q.role ≠ .leader ∧ q.log = fl ∧
      (∀ i, prev = some i → i < ll.length ∧ prevTerm = RaftProtocol.termAt ll i) ∧
      x.follower.handleMessage env l x.message =
        q.handleAppendEntries env t l prev prevTerm (ll.drop (RaftProtocol.startAt prev)) lc := by
  obtain ⟨prevTerm,lc,hmsg,hprev⟩ := h.message
  have hin : RaftProtocol.incomingTerm x.message = some t := by
    rw [hmsg]
    rfl
  obtain ⟨hterm,hrole,hlog,-⟩ := x.follower.bumpTerm_facts env x.message hin h.behind h.follows
  refine ⟨x.follower.bumpTerm env x.message,prevTerm,lc,hterm,hrole,hlog.trans h.held,hprev,?_⟩
  rw [RaftProtocol.handleMessage,hmsg]
  rfl

theorem firstFor_head {wanted : RaftMessage V → Bool} {m : RaftMessage V} (hm : wanted m = true)
    (out : List (Outgoing (RaftMessage V))) : firstFor l wanted (⟨.peer l,m⟩ :: out) = some m := by
  simp [firstFor,hm]

theorem Exchange.round_of_answer {env : Env × Env} {answer : RaftMessage V}
    (h : firstFor l isAppendEntriesResponse
      (x.follower.handleMessage env.1 l x.message).2 = some answer) :
    x.round l f env =
      ⟨(turn .exact env.2 x.leader (.message f answer)).final,
        (turn .exact env.1 x.follower (.message l x.message)).final,some answer,
        firstFor f isAppendEntries (x.leader.handleMessage env.2 f answer).2⟩ := by
  have h' : firstFor l isAppendEntriesResponse
      (turn .exact env.1 x.follower (.message l x.message)).outgoing = some answer := h
  simp only [Exchange.round,h']
  rfl

theorem turn_message_facts (env : Env) {p q : RaftProtocol V} {sender : NodeId}
    {msg : RaftMessage V} (hq : (p.handleMessage env sender msg).1 = q) :
    let r := (turn .exact env p (.message sender msg)).final
    r.role = q.role ∧ r.currentTerm = q.currentTerm ∧ r.nodeId = q.nodeId ∧ r.log = q.log ∧
      r.matchIndex = q.matchIndex := by
  obtain ⟨lost,hfinal⟩ := turn_final .exact env p (.message sender msg)
  have hq' : (p.handle env (.message sender msg)).1 = q := hq
  rw [hfinal,hq']
  exact ⟨rfl,rfl,rfl,rfl,rfl⟩

theorem Exchange.next_of_round {env : Env × Env} {r : Round V} {m : RaftMessage V}
    (h : x.round l f env = r) (hm : r.next = some m) :
    x.next l f env = some ⟨r.leader,r.follower,m⟩ := by
  subst h
  simp [Exchange.next,hm]

theorem Exchange.Offers.leader_turn (h : x.Offers l t ll fl prev) (env : Env) (success : Bool)
    (mi ct ci : Option ℕ) :
    x.leader.handleMessage env f (.appendEntriesResponse t success mi ct ci) =
      x.leader.handleAppendEntriesResponse f t success mi ct ci := by
  rw [RaftProtocol.handleMessage,RaftProtocol.bumpTerm_same]
  · rfl
  · rw [h.term]
    rfl

/-- Told to rewind to `i` or below, the leader offers what follows an earlier entry. -/
theorem Exchange.Offers.rewinds (h : x.Offers l t ll fl prev) {ct ci : Option ℕ} {i : ℕ}
    (hle : x.leader.rewindIndex f ct ci ≤ i) :
    ∃ (next : AList fun _ : NodeId => ℕ) (prev' : Option ℕ) (prevTerm : ℕ) (lc : Option ℕ),
      x.leader.handleAppendEntriesResponse f t false none ct ci =
        ({ x.leader with nextIndex := next },
          [⟨.peer f,.appendEntries t l prev' prevTerm (ll.drop (RaftProtocol.startAt prev')) lc⟩]) ∧
      ∀ j, prev' = some j → j < i ∧ j < ll.length ∧ prevTerm = RaftProtocol.termAt ll j := by
  have hlen := x.leader.rewindIndex_le f ct ci
  have hlead : ¬ (x.leader.role ≠ .leader ∨ t ≠ x.leader.currentTerm) := by
    simp [h.role,h.term]
  rw [RaftProtocol.handleAppendEntriesResponse,if_neg hlead]
  simp only [Bool.false_eq_true,if_false]
  generalize x.leader.rewindIndex f ct ci = n at hle hlen
  rw [h.log] at hlen ⊢
  cases n with
  | zero =>
    refine ⟨x.leader.nextIndex.insert f 0,none,0,x.leader.commitIndex,?_,fun j hj => nomatch hj⟩
    rw [h.ident,h.term]
    rfl
  | succ j =>
    refine ⟨x.leader.nextIndex.insert f (j + 1),some j,RaftProtocol.termAt ll j,
      x.leader.commitIndex,?_,?_⟩
    · rw [h.ident,h.term]
      rfl
    · intro k hk
      cases hk
      exact ⟨hle,hlen,rfl⟩

/-- A refused offer is followed by one that builds on an earlier entry. -/
theorem Exchange.Offers.refused (h : x.Offers l t ll fl prev) (hl : Grown LogEntry.term book ll)
    (hf : Grown LogEntry.term book fl) (hnot : ¬ Ready ll fl prev) (env : Env × Env) :
    ∃ y i prev', prev = some i ∧ (∀ j, prev' = some j → j < i) ∧ x.next l f env = some y ∧
      (x.round l f env).Rejected ∧ y.Offers l t ll fl prev' := by
  obtain ⟨q,prevTerm,lc,hqt,hqr,hql,hprev,hturn⟩ := h.follower_turn env.1
  cases prev with
  | none => exact absurd (fun i hi => nomatch hi) hnot
  | some i =>
    obtain ⟨hi,rfl⟩ := hprev i rfl
    have hrej : ¬ RaftProtocol.Follows fl (some i) (RaftProtocol.termAt ll i) := by
      intro hfol
      refine hnot fun j hj => ?_
      cases hj
      exact hfol
    have hreply := q.handleAppendEntries_rejected env.1 l
      (ll.drop (RaftProtocol.startAt (some i))) lc hqt hqr (hql.symm ▸ hrej)
    rw [← hturn,hql] at hreply
    have hround := x.round_of_answer (f := f) (by rw [hreply]; exact firstFor_head rfl [])
    obtain ⟨next,prev',prevTerm',lc',hlead,hprev'⟩ := h.rewinds
      (RaftProtocol.rewindIndex_le_refused (h.log.symm ▸ hl) hf f (h.log.symm ▸ hrej))
    rw [← h.leader_turn env.2] at hlead
    rw [hlead,firstFor_head rfl] at hround
    have hnext := Exchange.next_of_round hround rfl
    refine ⟨_,i,prev',rfl,fun j hj => (hprev' j hj).1,hnext,⟨_,_,_,_,by rw [hround]⟩,?_⟩
    obtain ⟨hlrole,hlterm,hlid,hllog,-⟩ := turn_message_facts env.2 (congrArg Prod.fst hlead)
    obtain ⟨hfrole,hfterm,-,hflog,-⟩ := turn_message_facts env.1 (congrArg Prod.fst hreply)
    exact {
      role := hlrole.trans h.role
      term := hlterm.trans h.term
      ident := hlid.trans h.ident
      log := hllog.trans h.log
      behind := (hfterm.trans hqt).le
      follows := fun hc => nomatch hfrole.symm.trans hc.2
      held := hflog.trans hql
      message := ⟨_,_,rfl,fun j hj => (hprev' j hj).2⟩ }

theorem grown_agrees (hl : Grown LogEntry.term book ll) (hf : Grown LogEntry.term book fl) (n : ℕ) :
    RaftProtocol.Agrees fl n (ll.drop n) := by
  intro k e y he hy ht
  rw [List.getElem?_drop] at he
  have htake := congrArg (fun l : List (LogEntry V) => l[n + k]?) (hl.matching hf he hy ht.symm)
  simp only [List.getElem?_take_of_lt (Nat.lt_succ_self _),he,hy,Option.some.injEq] at htake
  exact htake.symm

theorem Ready.take_eq (hl : Grown LogEntry.term book ll) (hf : Grown LogEntry.term book fl)
    (hready : Ready ll fl prev) (hprev : ∀ i, prev = some i → i < ll.length) :
    fl.take (RaftProtocol.startAt prev) = ll.take (RaftProtocol.startAt prev) := by
  cases prev with
  | none => rfl
  | some i =>
    obtain ⟨e,he,ht⟩ := hready i rfl i rfl
    have hlt := hprev i rfl
    have hi : ll[i]? = some ll[i] := List.getElem?_eq_getElem hlt
    rw [RaftProtocol.termAt_of_getElem? hi] at ht
    exact hf.matching hl he hi ht

theorem Exchange.Offers.accepted (h : x.Offers l t ll fl prev) (hl : Grown LogEntry.term book ll)
    (hf : Grown LogEntry.term book fl) (hne : ll ≠ []) (hready : Ready ll fl prev)
    (env : Env × Env) :
    let r := x.round l f env
    x.next l f env = none ∧ r.Accepted ∧ r.follower.log = ll ∧ r.leader.log = ll ∧
      r.leader.matchIndex.lookup f = some (some (ll.length - 1)) := by
  obtain ⟨q,prevTerm,lc,hqt,hqr,hql,hprev,hturn⟩ := h.follower_turn env.1
  have hpos : 0 < ll.length := List.length_pos_iff.mpr hne
  have hfol : RaftProtocol.Follows q.log prev prevTerm := by
    intro i hi
    rw [hql,(hprev i hi).2]
    exact hready i hi i rfl
  have hstart : RaftProtocol.startAt prev ≤ ll.length := by
    cases prev with
    | none => exact Nat.zero_le _
    | some i => exact (hprev i rfl).1
  have hlen : RaftProtocol.startAt prev + (ll.drop (RaftProtocol.startAt prev)).length = ll.length := by
    rw [List.length_drop]
    omega
  obtain ⟨hlog,-,forwards,hreply⟩ := q.handleAppendEntries_accepted env.1 l
    (ll.drop (RaftProtocol.startAt prev)) lc hqt hqr hfol
  rw [q.spliced_log env.1 l hfol (hql.symm ▸ grown_agrees hl hf _) (by omega),hql,
    hready.take_eq hl hf fun i hi => (hprev i hi).1,List.take_append_drop,← hturn] at hlog
  rw [RaftProtocol.verifiedIndex_eq,hlen,if_neg hpos.ne',← hturn] at hreply
  have hround := x.round_of_answer (f := f) (by rw [hreply]; exact firstFor_head rfl forwards)
  have hlead : x.leader.handleAppendEntriesResponse f t true (some (ll.length - 1)) none none =
      ({ x.leader with
        matchIndex := x.leader.matchIndex.insert f (some (ll.length - 1))
        nextIndex := x.leader.nextIndex.insert f (ll.length - 1 + 1) }.tryAdvanceCommit,[]) := by
    have hlead : ¬ (x.leader.role ≠ .leader ∨ t ≠ x.leader.currentTerm) := by
      simp [h.role,h.term]
    have hbound : ¬ (x.leader.log.length = 0 ∨ x.leader.log.length ≤ ll.length - 1) := by
      rw [h.log]
      omega
    rw [RaftProtocol.handleAppendEntriesResponse,if_neg hlead]
    simp only [if_true,if_neg hbound]
  obtain ⟨ci,ds,la,b,hadv,-⟩ := (RaftProtocol.tryAdvanceCommit_advanced
    { x.leader with
      matchIndex := x.leader.matchIndex.insert f (some (ll.length - 1))
      nextIndex := x.leader.nextIndex.insert f (ll.length - 1 + 1) }).frame
  rw [hadv,← h.leader_turn env.2] at hlead
  rw [hlead] at hround
  obtain ⟨-,-,-,hllog,hlmatch⟩ := turn_message_facts env.2 (congrArg Prod.fst hlead)
  obtain ⟨-,-,-,hflog,-⟩ := turn_message_facts env.1
    (show (x.follower.handleMessage env.1 l x.message).1 = _ from rfl)
  rw [hround]
  refine ⟨?_,⟨_,_,_,_,rfl⟩,hflog.trans hlog,hllog.trans h.log,?_⟩
  · rw [Exchange.next,hround]
    rfl
  · rw [hlmatch]
    exact AList.lookup_insert _

/-- The exchange ends in as many rounds as there are entries to go back, and one. -/
theorem Exchange.Offers.run (hl : Grown LogEntry.term book ll) (hf : Grown LogEntry.term book fl)
    (hne : ll ≠ []) {envs : List (Env × Env)} (h : x.Offers l t ll fl prev)
    (hlen : RaftProtocol.startAt prev < envs.length) :
    ∃ r, x.run l f envs = some r ∧ r.Accepted ∧ r.follower.log = ll ∧ r.leader.log = ll ∧
      r.leader.matchIndex.lookup f = some (some (ll.length - 1)) := by
  induction envs generalizing x prev with
  | nil => simp at hlen
  | cons env envs ih =>
    by_cases hready : Ready ll fl prev
    · obtain ⟨hnext,hacc,hrest⟩ := h.accepted (f := f) hl hf hne hready env
      refine ⟨_,?_,hacc,hrest⟩
      simp only [Exchange.run,hnext]
    · obtain ⟨y,i,prev',rfl,hlt,hnext,-,hy⟩ := h.refused (f := f) hl hf hready env
      simp only [Exchange.run,hnext]
      refine ih hy ?_
      have hback : RaftProtocol.startAt prev' ≤ i := by
        cases prev' with
        | none => exact Nat.zero_le _
        | some j => exact hlt j rfl
      simp only [RaftProtocol.startAt,List.length_cons] at hlen hback ⊢
      omega

theorem Exchange.Offers.reaches (hl : Grown LogEntry.term book ll)
    (hf : Grown LogEntry.term book fl) (hne : ll ≠ []) (h : x.Offers l t ll fl prev)
    {y : Exchange V} (hy : Runs.Reaches (Exchange.next l f) (fun _ _ => True) x y) :
    ∃ prev', y.Offers l t ll fl prev' := by
  refine hy.invariant (fun y : Exchange V => ∃ prev', y.Offers l t ll fl prev') ⟨prev,h⟩ ?_
  rintro y env z - ⟨prev',hoff⟩ - hz
  by_cases hready : Ready ll fl prev'
  · rw [(hoff.accepted hl hf hne hready env).1] at hz
    cases hz
  · obtain ⟨z',_,prev'',_,_,hnext,_,hz'⟩ := hoff.refused hl hf hready env
    exact ⟨prev'',Option.some.inj (hnext.symm.trans hz) ▸ hz'⟩

end

theorem lastLogTerm_eq (p : RaftProtocol V) :
    p.lastLogTerm = RaftProtocol.termAt p.log (p.log.length - 1) := by
  rw [RaftProtocol.lastLogTerm,RaftProtocol.termAt,List.getLast?_eq_getElem?]

theorem Exchange.heartbeat_offers {p q : RaftProtocol V} (env : Env) (hrole : p.role = .leader)
    (hlog : p.log ≠ []) (hbehind : q.currentTerm ≤ p.currentTerm)
    (hq : ¬ (p.currentTerm = q.currentTerm ∧ q.role = .leader)) :
    ∃ x, Exchange.heartbeat env p q = some x ∧
      x.Offers p.nodeId p.currentTerm p.log q.log (some (p.log.length - 1)) := by
  have hpos : 0 < p.log.length := List.length_pos_iff.mpr hlog
  refine ⟨_,rfl,hrole,rfl,rfl,rfl,hbehind,hq,rfl,p.lastLogTerm,p.commitIndex,?_,?_⟩
  · have hlast : p.lastLogIndex = some (p.log.length - 1) := if_neg hpos.ne'
    simp only [hlast,RaftProtocol.startAt]
    rw [List.drop_eq_nil_of_le (by omega)]
  · intro i hi
    cases hi
    exact ⟨by omega,lastLogTerm_eq p⟩

/-- Catching up ends with equal logs: each refusal moves the offer to an earlier
entry, and after at most one round more than the leader has entries the follower
accepts, has the leader's log, and the leader knows it. -/
theorem catch_up (M : Membership N) (env : Env) (s : Cluster N V)
    (h : Runs.Reaches (Cluster.step M) AnyLabel (.init M env) s) (l f : Fin N) (hne : f ≠ l)
    (hrole : (s.nodes l).protocol.role = .leader) (hlog : (s.nodes l).protocol.log ≠ [])
    (hterm : (s.nodes f).protocol.currentTerm ≤ (s.nodes l).protocol.currentTerm) (now : Env) :
    ∃ x, Exchange.heartbeat now (s.nodes l).protocol (s.nodes f).protocol = some x ∧
      (∀ y e, Runs.Reaches (Exchange.next (M.ids l) (M.ids f)) (fun _ _ => True) x y →
        (y.round (M.ids l) (M.ids f) e).Rejected →
        ∃ z i, y.next (M.ids l) (M.ids f) e = some z ∧ y.prev = some i ∧
          ∀ j, z.prev = some j → j < i) ∧
      ∀ envs : List (Env × Env), (s.nodes l).protocol.log.length < envs.length →
        ∃ r, x.run (M.ids l) (M.ids f) envs = some r ∧ r.Accepted ∧
          r.follower.log = (s.nodes l).protocol.log ∧ r.leader.log = (s.nodes l).protocol.log ∧
          r.leader.matchIndex.lookup (M.ids f) =
            some (some ((s.nodes l).protocol.log.length - 1)) := by
  obtain ⟨a,ha⟩ := reaches_ok False False.elim h
  have hb := ha.sound.base
  have hl : Grown LogEntry.term a.book (s.nodes l).protocol.log := by
    rw [(ha.nodes l).tracks.log]
    exact hb.log_grown l
  have hf : Grown LogEntry.term a.book (s.nodes f).protocol.log := by
    rw [(ha.nodes f).tracks.log]
    exact hb.log_grown f
  have hid : (s.nodes l).protocol.nodeId = M.ids l := (ha.nodes l).tracks.ident.symm
  -- two leaders of one term would be one node
  have hother : ¬ ((s.nodes l).protocol.currentTerm = (s.nodes f).protocol.currentTerm ∧
      (s.nodes f).protocol.role = .leader) := by
    rintro ⟨hsame,hfrole⟩
    have hwl := hb.lead_won ((ha.nodes l).tracks.lead.mp hrole)
    have hwf := hb.lead_won ((ha.nodes f).tracks.lead.mp hfrole)
    rw [← (ha.nodes l).tracks.term,hsame,(ha.nodes f).tracks.term] at hwl
    exact hne (hb.won_unique hwf hwl)
  obtain ⟨x,hx,hoff⟩ := Exchange.heartbeat_offers now hrole hlog hterm hother
  rw [hid] at hoff
  refine ⟨x,hx,?_,?_⟩
  · rintro y e hy ⟨t,mi,ct,ci,hanswer⟩
    obtain ⟨prev,hyoff⟩ := hoff.reaches hl hf hlog hy
    by_cases hready : Ready (s.nodes l).protocol.log (s.nodes f).protocol.log prev
    · obtain ⟨-,⟨t',mi',ct',ci',hacc⟩,-⟩ := hyoff.accepted (f := M.ids f) hl hf hlog hready e
      rw [hanswer] at hacc
      cases hacc
    · obtain ⟨z,i,prev',rfl,hlt,hnext,-,hz⟩ := hyoff.refused (f := M.ids f) hl hf hready e
      refine ⟨z,i,hnext,hyoff.prev_eq,?_⟩
      rw [hz.prev_eq]
      exact hlt
  · intro envs hlen
    refine hoff.run hl hf hlog ?_
    have hpos : 0 < (s.nodes l).protocol.log.length := List.length_pos_iff.mpr hlog
    simp only [RaftProtocol.startAt]
    omega

/-- Node `a` has appended 7 and nobody else has it yet. -/
def submittedEnd : Cluster 3 ℕ :=
  Runs.after (Cluster.step trio) AnyLabel (.init trio ⟨0,0⟩) (firstTerm.take 4) (by decide +kernel)

theorem catch_up_submitted : (submittedEnd.nodes 1).protocol.log = [] ∧
    ∃ x, Exchange.heartbeat ⟨1010,0⟩ (submittedEnd.nodes 0).protocol
        (submittedEnd.nodes 1).protocol = some x ∧
      ∃ r, x.run (trio.ids 0) (trio.ids 1) [(⟨1011,0⟩,⟨1012,0⟩),(⟨1013,0⟩,⟨1014,0⟩)] = some r ∧
        r.follower.log = (submittedEnd.nodes 0).protocol.log := by
  obtain ⟨x,hx,-,hrun⟩ := catch_up trio ⟨0,0⟩ submittedEnd
    (Runs.after_reaches .start (by decide +kernel)) 0 1 (by decide) (by decide +kernel)
    (by decide +kernel) (by decide +kernel) ⟨1010,0⟩
  obtain ⟨r,hr,-,hlog,-⟩ := hrun [(⟨1011,0⟩,⟨1012,0⟩),(⟨1013,0⟩,⟨1014,0⟩)] (by decide +kernel)
  exact ⟨by decide +kernel,x,hx,r,hr,hlog⟩

end Raft
end Daccord
