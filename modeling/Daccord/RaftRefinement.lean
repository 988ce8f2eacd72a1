import Daccord.RaftCluster
import Daccord.RaftDurability
import Daccord.ReplicatedLogCommit

/-! The cluster refines the replicated log. Node `i` of the cluster is node `i`
of the abstract system; every packet ever sent is backed by a fact of its
history. With `strict` the relation also covers commitment. -/
namespace Daccord
namespace Raft

open ReplicatedLog (State Base Durable Sound Steps Settled Committed UpToDate lastTerm Grown)

variable {V : Type} {N : ℕ}

abbrev Abstract (N : ℕ) (V : Type) := State (Fin N) (LogEntry V)

/-- `d` reads a settled entry of the log of node `i`. -/
def Decides (a : Abstract N V) (i : Fin N) (d : Decision V) : Prop :=
  Settled LogEntry.term a (a.term i) (a.log i) (d.slot + 1) ∧
    ∃ e, (a.log i)[d.slot]? = some e ∧ e.value = d.value

/-- In a cluster of one, a vote for itself is a won election. -/
def Solo (a : Abstract N V) (i : Fin N) : Prop :=
  N = 1 → 0 < a.term i → a.vote i = some i →
    a.won (a.term i) i ∧ a.log i = a.book (a.term i)

/-- The protocol state `p` of node `i` as the abstract state `a` sees it. -/
structure Tracks (R : Roster N) (strict : Prop) (a : Abstract N V) (i : Fin N)
    (p : RaftProtocol V) : Prop where
  ident : R.owns i p.nodeId
  total : p.totalNodes = N
  term : p.currentTerm = a.term i
  vote : R.Names p.votedFor (a.vote i)
  log : p.log = a.log i
  lead : p.role = .leader ↔ a.lead i
  candidate : p.role = .candidate → a.ran (a.term i) i ∧ a.log i = a.poll (a.term i) i ∧
    ¬ a.won (a.term i) i ∧ ∀ id ∈ p.votesReceived, ∃ v, R.owns v id ∧ a.ballot (a.term i) v i
  matched : p.role = .leader → ∀ id k, p.matchIndex.lookup id = some (some k) →
    ∃ v, R.owns v id ∧ a.ack v (a.term i) (k + 1)
  commit : strict → ∀ c, p.commitIndex = some c →
    Settled LogEntry.term a (a.term i) (a.log i) (c + 1)
  decided : strict → ∀ d ∈ p.pendingDecisions, Decides a i d
  polled : p.role = .candidate → R.Distinct p.votesReceived
  counted : p.role = .leader → strict → R.Distinct (insert p.nodeId {id | id ∈ p.matchIndex})

/-- What a packet says is true of the history. -/
def Backed (R : Roster N) (strict : Prop) (a : Abstract N V) (src dst : Fin N) :
    RaftMessage V → Prop
  | .requestVote t c li lt => R.owns src c ∧ a.ran t src ∧
      li = RaftProtocol.lastIndexOf (a.poll t src) ∧ lt = lastTerm LogEntry.term (a.poll t src)
  | .requestVoteResponse t granted => granted = true → a.ballot t src dst
  | .appendEntries t l prev prevTerm es lc => R.owns src l ∧ a.won t src ∧
      (∃ k, (a.poll t src).length ≤ k ∧ k ≤ (a.book t).length ∧
        RaftProtocol.Carries ((a.book t).take k) prev prevTerm es) ∧
      (strict → ∀ c, lc = some c → Settled LogEntry.term a t (a.book t) (c + 1))
  | .appendEntriesResponse t success mi _ _ =>
      success = true → ∀ k, mi = some k → a.ack src t (k + 1)
  | .forward .. => True

def BackedOut (R : Roster N) (strict : Prop) (a : Abstract N V) (i : Fin N)
    (out : Outgoing (RaftMessage V)) : Prop :=
  ∀ j, j ≠ i → R.addressed j out.target → Backed R strict a i j out.message

section
variable {R : Roster N} {strict : Prop} {a a' : Abstract N V} {i : Fin N}
  {p q : RaftProtocol V}

theorem Backed.mono (hb : Base LogEntry.term a) (hx : ReplicatedLog.Extends LogEntry.term a a')
    {src dst : Fin N} {msg : RaftMessage V} (h : Backed R strict a src dst msg) :
    Backed R strict a' src dst msg := by
  cases msg with
  | requestVote t c li lt =>
    obtain ⟨hc,hr,hli,hlt⟩ := h
    refine ⟨hc,hx.ran hr,?_,?_⟩
    · rw [hx.poll hr]
      exact hli
    · rw [hx.poll hr]
      exact hlt
  | requestVoteResponse t granted => exact fun hg => hx.ballot (h hg)
  | appendEntries t l prev prevTerm es lc =>
    obtain ⟨hl,hw,⟨k,hlo,hhi,hc⟩,hs⟩ := h
    refine ⟨hl,hx.won hw,⟨k,?_,hhi.trans (hx.book t).length_le,?_⟩,fun hst c hc => ?_⟩
    · rw [hx.poll (hb.won_ran hw)]
      exact hlo
    · rw [hx.take_book hhi]
      exact hc
    · exact (hs hst c hc).mono hx (le_refl t)
        ((List.take_prefix _ _).trans (hx.book t))
  | appendEntriesResponse t success mi ct ci => exact fun hs k hk => hx.ack (h hs k hk)
  | forward v hops => trivial

theorem Decides.steps (hs : Sound LogEntry.term strict a) (hst : strict)
    (h : Steps LogEntry.term strict i a a') {j : Fin N} {d : Decision V} (hd : Decides a j d) :
    Decides a' j d := by
  obtain ⟨hset,e,he,hv⟩ := hd
  have hx := (hs.base.steps h).2
  have hset' := hs.settled_steps hst h hset
  have hold : Settled LogEntry.term a' (a.term j) (a.log j) (d.slot + 1) :=
    hset.mono hx (le_refl _) (List.take_prefix _ _)
  have hs' := hs.steps h
  refine ⟨hset',e,?_,hv⟩
  rw [← he]
  exact (hs'.durable hst).settled_agree hs'.base hset' hold (Nat.lt_succ_self _)
    (Nat.lt_succ_self _)

theorem Decides.agree (hs : Sound LogEntry.term strict a) (hst : strict) {j : Fin N}
    {d d' : Decision V} (hd : Decides a i d) (hd' : Decides a j d') (h : d.slot = d'.slot) :
    d.value = d'.value := by
  obtain ⟨hset,e,he,hv⟩ := hd
  obtain ⟨hset',e',he',hv'⟩ := hd'
  rw [← h] at hset' he'
  have heq := (hs.durable hst).settled_agree hs.base hset hset' (Nat.lt_succ_self _)
    (Nat.lt_succ_self _)
  rw [he,he'] at heq
  rw [← hv,← hv',Option.some.inj heq]

theorem Tracks.apart (hs : Sound LogEntry.term strict a) (h : Steps LogEntry.term strict i a a')
    {j : Fin N} (hj : j ≠ i) (ht : Tracks R strict a j p) : Tracks R strict a' j p := by
  have hap := h.apart
  have hx := (hs.base.steps h).2
  have hterm := hap.term hj
  have hlog := hap.log hj
  refine ⟨ht.ident,ht.total,by rw [hterm]; exact ht.term,by rw [hap.vote hj]; exact ht.vote,
    by rw [hlog]; exact ht.log,ht.lead.trans (hap.lead hj).symm,?_,?_,?_,?_,ht.polled,ht.counted⟩
  · intro hc
    obtain ⟨hr,hp,hw,hv⟩ := ht.candidate hc
    rw [hterm,hlog]
    refine ⟨hx.ran hr,by rw [hx.poll hr]; exact hp,fun hw' => hw ((hap.won hj).mp hw'),?_⟩
    intro id hid
    obtain ⟨v,hv,hb⟩ := hv id hid
    exact ⟨v,hv,hx.ballot hb⟩
  · intro hl id k hk
    obtain ⟨v,hv,ha⟩ := ht.matched hl id k hk
    rw [hterm]
    exact ⟨v,hv,hx.ack ha⟩
  · exact fun hst c hc => hs.settled_steps hst h (ht.commit hst c hc)
  · exact fun hst d hd => (ht.decided hst d hd).steps hs hst h

/-- What moves the commit index forward settles the entries below it. -/
theorem Tracks.advanced (ht : Tracks R strict a i p) {why : ℕ → Prop}
    (hwhy : strict → ∀ c, why c → Settled LogEntry.term a (a.term i) (a.log i) (c + 1))
    (hq : p.Advanced why q) : Tracks R strict a i q := by
  obtain ⟨ci,ds,la,b,rfl,hci,hds⟩ := hq.frame
  have hset : strict → ∀ c, ci = some c →
      Settled LogEntry.term a (a.term i) (a.log i) (c + 1) := by
    intro hst c hc
    rcases hci with hci | ⟨c',hc',hw⟩
    · exact ht.commit hst c (hci ▸ hc)
    · rw [hc'] at hc
      rw [← Option.some.inj hc]
      exact hwhy hst c' hw
  refine { ht with
    commit := hset
    decided := ?_ }
  intro hst d hd
  rcases List.mem_append.mp hd with hd | hd
  · exact ht.decided hst d hd
  · obtain ⟨c,e,hc,hle,he,hv⟩ := hds d hd
    rw [ht.log] at he
    exact ⟨(hset hst c hc).weaken (by omega),e,he,hv⟩

theorem Tracks.replicated (hb : Base LogEntry.term a) (ht : Tracks R strict a i p) (hst : strict)
    (hl : p.role = .leader) {c : ℕ} (hc : p.Replicated c) :
    Settled LogEntry.term a (a.term i) (a.log i) (c + 1) := by
  obtain ⟨⟨e,he,het⟩,Q,hq,hQ⟩ := hc
  have hlead := ht.lead.mp hl
  have hbook := hb.lead_log hlead
  rw [RaftProtocol.quorum,ht.total] at hq
  have hdistinct : R.Distinct Q := (ht.counted hl hst).mono fun id hid => by
    obtain ⟨k,hk,_⟩ := hQ id hid
    exact Or.inr (AList.lookup_isSome.mp (by rw [hk]; rfl))
  obtain ⟨S,hS,hack⟩ := Roster.majority (P := fun v => ∃ n, c < n ∧ a.ack v (a.term i) n)
    hdistinct hq (by
      intro id hid
      obtain ⟨k,hk,hck⟩ := hQ id hid
      obtain ⟨v,hv,ha⟩ := ht.matched hl id k hk
      exact ⟨v,hv,k + 1,by omega,ha⟩)
  right
  refine ⟨a.term i,c,le_refl _,⟨⟨e,?_,?_⟩,S,hS,hack⟩,le_refl _,?_⟩
  · rw [← hbook,← ht.log]
    exact he
  · rw [het,ht.term]
  · rw [hbook]
    exact List.take_prefix _ _

theorem Tracks.tryAdvanceCommit (hb : Base LogEntry.term a) (ht : Tracks R strict a i p)
    (hl : p.role = .leader) : Tracks R strict a i p.tryAdvanceCommit :=
  ht.advanced (fun hst _ hc => ht.replicated hb hst hl hc) p.tryAdvanceCommit_advanced

/-- A leader replicates its book. -/
theorem Tracks.announces (hb : Base LogEntry.term a) (ht : Tracks R strict a i p)
    (hl : p.role = .leader) {out : Outgoing (RaftMessage V)} (ho : p.Announces out) :
    BackedOut R strict a i out := by
  obtain ⟨prev,prevTerm,es,hmsg,hc⟩ := ho
  have hlead := ht.lead.mp hl
  have hbook := hb.lead_log hlead
  have hwon := hb.lead_won hlead
  intro j _ _
  rw [hmsg,ht.term]
  refine ⟨ht.ident,hwon,⟨(a.book (a.term i)).length,(hb.poll_book hwon).length_le,le_refl _,?_⟩,?_⟩
  · rw [List.take_length,← hbook,← ht.log]
    exact hc
  · intro hst c hc
    rw [← hbook]
    exact ht.commit hst c hc

structure Resting (R : Roster N) (a : Abstract N V) (i : Fin N) (t : ℕ)
    (v : Option NodeId) (l : List (LogEntry V)) : Prop where
  term : a.term i = t
  vote : R.Names v (a.vote i)
  log : a.log i = l
  solo : Solo a i

/-- A handler is matched by steps of the abstract node, and so is every crash
between the writes that follow it. -/
structure Simulated (R : Roster N) (strict : Prop) (a : Abstract N V) (i : Fin N)
    (p : RaftProtocol V) (r : Reply V) : Prop where
  full : ∃ a', Steps LogEntry.term strict i a a' ∧ Tracks R strict a' i r.1 ∧ Solo a' i ∧
    ∀ out ∈ r.2, BackedOut R strict a' i out
  torn : ∀ {t v l}, Torn p r.1 t v l → ∃ a', Steps LogEntry.term strict i a a' ∧
    Resting R a' i t v l ∧ (r.1.role = .leader → N = 1 ∨ a'.won r.1.currentTerm i)

theorem Tracks.resting (ht : Tracks R strict a i p) (hsolo : Solo a i) :
    Resting R a i p.currentTerm p.votedFor p.log :=
  ⟨ht.term.symm,ht.vote,ht.log.symm,hsolo⟩

theorem Solo.of_many (hN : N ≠ 1) : Solo a i := fun h => absurd h hN

theorem Solo.of_lead (hb : Base LogEntry.term a) (hl : a.lead i) : Solo a i :=
  fun _ _ _ => ⟨hb.lead_won hl,hb.lead_log hl⟩

theorem Tracks.won (hb : Base LogEntry.term a) (ht : Tracks R strict a i p)
    (hl : p.role = .leader) : a.won p.currentTerm i := by
  rw [ht.term]
  exact hb.lead_won (ht.lead.mp hl)

/-- Entering a term with the old vote: the state of a crash between the two writes. -/
theorem Tracks.observed (ht : Tracks R strict a i p) (hN : N ≠ 1) {t : ℕ}
    (hlt : p.currentTerm < t) : ∃ a', Steps LogEntry.term strict i a a' ∧
      Resting R a' i t p.votedFor p.log := by
  rw [ht.term] at hlt
  refine ⟨a.observe i t (a.vote i),.single (.observe t (a.vote i) hlt),?_,?_,?_,?_⟩
  · simp [State.observe]
  · simpa [State.observe] using ht.vote
  · simp [State.observe,ht.log]
  · exact fun h => absurd h hN

/-- A handler that leaves the log alone and makes nobody leader. -/
theorem Simulated.of_unlogged (hs : Sound LogEntry.term strict a) (ht : Tracks R strict a i p)
    (hsolo : Solo a i) {r : Reply V} (hN : N ≠ 1 ∨ r.1.currentTerm = p.currentTerm) (hu : Unlogged p r.1)
    (hlead : r.1.role = .leader → p.role = .leader ∧ r.1.currentTerm = p.currentTerm)
    (hsteps : Steps LogEntry.term strict i a a') (ht' : Tracks R strict a' i r.1)
    (hsolo' : Solo a' i) (hout : ∀ out ∈ r.2, BackedOut R strict a' i out) :
    Simulated R strict a i p r := by
  have hwon : r.1.role = .leader → a.won r.1.currentTerm i := by
    intro hl
    obtain ⟨hl',hterm⟩ := hlead hl
    rw [hterm]
    exact ht.won hs.base hl'
  have hb' := (hs.base.steps hsteps).1
  have hfull : Resting R a' i r.1.currentTerm r.1.votedFor p.log := by
    rw [← hu.log]
    exact ht'.resting hsolo'
  refine ⟨⟨a',hsteps,ht',hsolo',hout⟩,?_⟩
  intro t v l htorn
  cases htorn with
  | before => exact ⟨a,.refl,ht.resting hsolo,fun hl => Or.inr (hwon hl)⟩
  | term hlt =>
    have hN' : N ≠ 1 := by
      rcases hN with hN | hN
      · exact hN
      · omega
    obtain ⟨a'',hsteps',hrest⟩ := ht.observed hN' hlt
    refine ⟨a'',hsteps',hrest,fun hl => ?_⟩
    have := (hlead hl).2
    omega
  | vote => exact ⟨a',hsteps,hfull,fun hl => Or.inr (ht'.won hb' hl)⟩
  | cut n k hn => simp [hu.truncate] at hn
  | after => exact ⟨a',hsteps,ht'.resting hsolo',fun hl => Or.inr (ht'.won hb' hl)⟩

/-- A handler that keeps term and vote and only appends to the log. -/
theorem Simulated.of_appended (hs : Sound LogEntry.term strict a) (ht : Tracks R strict a i p)
    (hsolo : Solo a i) {r : Reply V} (hterm : r.1.currentTerm = p.currentTerm) (hvote : r.1.votedFor = p.votedFor)
    (htr : r.1.pendingTruncateFrom = none) (hl : p.role = .leader)
    (hsteps : Steps LogEntry.term strict i a a') (ht' : Tracks R strict a' i r.1)
    (hsolo' : Solo a' i) (hout : ∀ out ∈ r.2, BackedOut R strict a' i out) :
    Simulated R strict a i p r := by
  have hwon : a.won r.1.currentTerm i := by
    rw [hterm]
    exact ht.won hs.base hl
  have hx := (hs.base.steps hsteps).2
  refine ⟨⟨a',hsteps,ht',hsolo',hout⟩,?_⟩
  intro t v l htorn
  cases htorn with
  | before => exact ⟨a,.refl,ht.resting hsolo,fun _ => Or.inr hwon⟩
  | term hlt => omega
  | vote =>
    rw [hterm,hvote]
    exact ⟨a,.refl,ht.resting hsolo,fun _ => Or.inr (hterm ▸ hwon)⟩
  | cut n k hn => simp [htr] at hn
  | after => exact ⟨a',hsteps,ht'.resting hsolo',fun _ => Or.inr (hx.won hwon)⟩

theorem Tracks.appendOwn (ht : Tracks R strict a i p) (hs : Sound LogEntry.term strict a)
    (hl : p.role = .leader) {es : List (LogEntry V)} (hes : ∀ e ∈ es, e.term = p.currentTerm)
    (hne : es ≠ []) : Tracks R strict (a.append i es) i (p.appendOwn es) := by
  have hlead := ht.lead.mp hl
  have hstep : Steps LogEntry.term strict i a (a.append i es) :=
    .single (.append es hlead (by rw [← ht.term]; exact hes))
  have hx := (hs.base.steps hstep).2
  have hlen : 0 < es.length := List.length_pos_iff.mpr hne
  refine ⟨ht.ident,ht.total,ht.term,ht.vote,by simp [State.append,RaftProtocol.appendOwn,ht.log],
    ht.lead,fun hc => ?_,?_,?_,?_,fun hc => ?_,fun _ hst => ?_⟩
  · change p.role = .candidate at hc
    rw [hl] at hc
    cases hc
  · intro _ id k hk
    by_cases hid : id = p.nodeId
    · subst hid
      simp only [RaftProtocol.appendOwn,AList.lookup_insert,Option.some.injEq] at hk
      refine ⟨i,ht.ident,Or.inr ⟨rfl,rfl,?_⟩⟩
      rw [List.length_append,← ht.log]
      omega
    · simp only [RaftProtocol.appendOwn,AList.lookup_insert_ne hid] at hk
      obtain ⟨v,hv,ha⟩ := ht.matched hl id k hk
      exact ⟨v,hv,hx.ack ha⟩
  · exact fun hst c hc => hs.settled_steps hst hstep (ht.commit hst c hc)
  · exact fun hst d hd => (ht.decided hst d hd).steps hs hst hstep
  · change p.role = .candidate at hc
    rw [hl] at hc
    cases hc
  · refine (ht.counted hl hst).mono ?_
    rintro id (rfl | hid)
    · exact Or.inl rfl
    · exact (AList.mem_insert _).mp hid

theorem Tracks.broadcastWithEntries (ht : Tracks R strict a i p) (env : Env)
    (es : List (LogEntry V)) : Tracks R strict a i (p.broadcastWithEntries env es).1 := { ht with }

theorem Tracks.broadcastOwn (ht : Tracks R strict a i p) (hs : Sound LogEntry.term strict a)
    (hl : p.role = .leader) (env : Env) {es : List (LogEntry V)}
    (hes : ∀ e ∈ es, e.term = p.currentTerm) (hne : es ≠ []) :
    Steps LogEntry.term strict i a (a.append i es) ∧
    Tracks R strict (a.append i es) i
      ((p.appendOwn es).tryAdvanceCommit.broadcastWithEntries env es).1 ∧
    ∀ out ∈ ((p.appendOwn es).tryAdvanceCommit.broadcastWithEntries env es).2,
      BackedOut R strict (a.append i es) i out := by
  have hstep : Steps LogEntry.term strict i a (a.append i es) :=
    .single (.append es (ht.lead.mp hl) (by rw [← ht.term]; exact hes))
  have hb' := (hs.base.steps hstep).1
  have happ := ht.appendOwn hs hl hes hne
  have hadv := happ.tryAdvanceCommit hb' hl
  have hann := p.appendOwn_announces env es
  refine ⟨hstep,hadv.broadcastWithEntries env es,fun out ho => ?_⟩
  exact hadv.announces hb' ((p.appendOwn_role env es).trans hl) (hann out ho)

theorem BackedOut.forward {out : Outgoing (RaftMessage V)}
    (h : ∃ v hops, out.message = .forward v hops) : BackedOut R strict a i out := by
  obtain ⟨v,hops,hm⟩ := h
  intro j _ _
  rw [hm]
  trivial

theorem Tracks.propose (ht : Tracks R strict a i p) (hs : Sound LogEntry.term strict a)
    (hsolo : Solo a i) (hc : Clean p) (env : Env) (v : V) : Simulated R strict a i p (p.propose env v) := by
  by_cases hl : p.role = .leader
  · rw [p.propose_of_leader env v hl hc.append]
    have hown : ∀ e ∈ [(⟨p.currentTerm,v⟩ : LogEntry V)], e.term = p.currentTerm := by simp
    obtain ⟨hsteps,ht',hout⟩ := ht.broadcastOwn hs hl env hown (by simp)
    obtain ⟨ci,ds,la,b,hframe,_⟩ :=
      (p.appendOwn [⟨p.currentTerm,v⟩]).tryAdvanceCommit_advanced.frame
    refine .of_appended hs ht hsolo ?_ ?_ ?_ hl hsteps ht'
      (.of_lead (hs.steps hsteps).base (ht.lead.mp hl)) hout
    · simp only [RaftProtocol.broadcastWithEntries,hframe]
      rfl
    · simp only [RaftProtocol.broadcastWithEntries,hframe]
      rfl
    · simp only [RaftProtocol.broadcastWithEntries,hframe]
      exact hc.truncate
  · obtain ⟨pend,outs,heq,hfw⟩ := p.propose_cases env v hl
    rw [heq]
    refine .of_unlogged hs ht hsolo (Or.inr rfl) ?_ (fun h => ⟨h,rfl⟩) .refl { ht with } hsolo
      fun out ho => .forward (hfw out ho)
    exact ⟨hc.unlogged.vote,hc.unlogged.log,hc.unlogged.truncate,hc.unlogged.append⟩

theorem Tracks.quiet (ht : Tracks R strict a i p) (hs : Sound LogEntry.term strict a)
    (hsolo : Solo a i) (hc : Clean p) : Simulated R strict a i p (p,[]) :=
  .of_unlogged hs ht hsolo (Or.inr rfl) hc.unlogged (fun h => ⟨h,rfl⟩) .refl ht hsolo (by simp)

theorem Tracks.handleForward (ht : Tracks R strict a i p) (hs : Sound LogEntry.term strict a)
    (hsolo : Solo a i) (hc : Clean p) (env : Env) (sender : NodeId) (v : V) (hops : ℕ) :
    Simulated R strict a i p (p.handleForward env sender v hops) := by
  rcases p.handleForward_cases env sender v hops with ⟨_,heq⟩ | ⟨_,pend,outs,heq,hfw⟩
  · rw [heq]
    exact ht.propose hs hsolo hc env v
  · rw [heq]
    refine .of_unlogged hs ht hsolo (Or.inr rfl) ?_ (fun h => ⟨h,rfl⟩) .refl { ht with } hsolo
      fun out ho => .forward (hfw out ho)
    exact ⟨hc.unlogged.vote,hc.unlogged.log,hc.unlogged.truncate,hc.unlogged.append⟩

theorem Tracks.heartbeat (ht : Tracks R strict a i p) (hs : Sound LogEntry.term strict a)
    (hsolo : Solo a i) (hc : Clean p) (hl : p.role = .leader) (env : Env) :
    Simulated R strict a i p (p.broadcastHeartbeat env) := by
  refine .of_unlogged hs ht hsolo (Or.inr rfl) ?_ (fun h => ⟨h,rfl⟩) .refl { ht with } hsolo ?_
  · exact ⟨hc.unlogged.vote,hc.unlogged.log,hc.unlogged.truncate,hc.unlogged.append⟩
  · exact fun out ho =>
      ht.announces hs.base hl (RaftProtocol.broadcastHeartbeat_announces env p out ho)

theorem Tracks.bumpTerm (ht : Tracks R strict a i p) (hs : Sound LogEntry.term strict a)
    (env : Env) (msg : RaftMessage V) :
    ∃ a', Steps LogEntry.term strict i a a' ∧ Tracks R strict a' i (p.bumpTerm env msg) ∧
      (∀ t, RaftProtocol.incomingTerm msg = some t → t ≤ (p.bumpTerm env msg).currentTerm) ∧
      ((p.bumpTerm env msg).role = .leader →
        p.role = .leader ∧ (p.bumpTerm env msg).currentTerm = p.currentTerm) := by
  rcases p.bumpTerm_cases env msg with ⟨heq,hle⟩ | ⟨t,hi,hlt,heq⟩
  · rw [heq]
    exact ⟨a,.refl,ht,hle,fun hl => ⟨hl,rfl⟩⟩
  · rw [heq]
    have hlt' : a.term i < t := by rw [← ht.term]; exact hlt
    have hstep : Steps LogEntry.term strict i a (a.observe i t none) :=
      .single (.observe t none hlt')
    refine ⟨a.observe i t none,hstep,⟨ht.ident,ht.total,?_,?_,ht.log,?_,nofun,nofun,?_,?_,nofun,
      nofun⟩,?_,?_⟩
    · simp [State.observe]
    · simp [State.observe,Roster.Names]
    · simp [State.observe]
    · exact fun hst c hc => hs.settled_steps hst hstep (ht.commit hst c hc)
    · exact fun hst d hd => (ht.decided hst d hd).steps hs hst hstep
    · intro u hu
      rw [hi] at hu
      exact (Option.some.inj hu).ge
    · simp

theorem lastLogTerm_eq_lastTerm (p : RaftProtocol V) :
    p.lastLogTerm = lastTerm LogEntry.term p.log := rfl

/-- The log comparison of the vote is the abstract one. -/
theorem upToDate_of_candidate {l : List (LogEntry V)}
    (h : p.candidateLogAtLeastAsUpToDate (lastTerm LogEntry.term l)
      (RaftProtocol.lastIndexOf l) = true) : UpToDate LogEntry.term p.log l := by
  unfold RaftProtocol.candidateLogAtLeastAsUpToDate at h
  rw [lastLogTerm_eq_lastTerm,RaftProtocol.lastLogIndex,RaftProtocol.lastIndexOf_eq,
    RaftProtocol.lastIndexOf_eq] at h
  by_cases ht : lastTerm LogEntry.term l = lastTerm LogEntry.term p.log
  · right
    refine ⟨ht.symm,?_⟩
    rw [if_neg (not_not.mpr ht)] at h
    by_cases h1 : l.length = 0
    · by_cases h2 : p.log.length = 0
      · omega
      · simp [h1,h2] at h
    · by_cases h2 : p.log.length = 0
      · omega
      · simp only [h1,h2,if_false,decide_eq_true_eq] at h
        omega
  · left
    simpa [ht] using h

theorem Tracks.handleRequestVote (ht : Tracks R strict a i p) (hs : Sound LogEntry.term strict a)
    (hc : Clean p) (hN : N ≠ 1) (env : Env) (sender : NodeId) {src : Fin N} {t : ℕ} {c : NodeId}
    {li : Option ℕ} {lt : ℕ} (hbk : Backed R strict a src i (.requestVote t c li lt)) :
    Simulated R strict a i p (p.handleMessage env sender (.requestVote t c li lt)) := by
  obtain ⟨a1,hsteps,ht1,hle,hlead⟩ := ht.bumpTerm hs env (.requestVote t c li lt)
  have hs1 := hs.steps hsteps
  have hu := hc.bumpTerm env (.requestVote t c li lt)
  obtain ⟨hown,hran,rfl,rfl⟩ := Backed.mono hs.base (hs.base.steps hsteps).2 hbk
  have hu' := hu.handleRequestVote env t c (RaftProtocol.lastIndexOf (a1.poll t src))
    (lastTerm LogEntry.term (a1.poll t src))
  unfold RaftProtocol.handleMessage RaftProtocol.dispatch
  generalize p.bumpTerm env _ = q at *
  rcases q.handleRequestVote_cases env t c (RaftProtocol.lastIndexOf (a1.poll t src))
    (lastTerm LogEntry.term (a1.poll t src)) with heq | ⟨hqt,hv,hup,heq⟩
  · simp only [heq] at hu' ⊢
    refine .of_unlogged hs ht (.of_many hN) (Or.inl hN) hu' hlead hsteps ht1 (.of_many hN) ?_
    simp [BackedOut,Backed]
  · simp only [heq] at hu' ⊢
    have htq : t = a1.term i := by
      have := hle t rfl
      rw [← ht1.term]
      omega
    have hvote : a1.vote i = none ∨ a1.vote i = some src := by
      have hnames := ht1.vote
      rcases hv with hv | hv
      · rw [hv] at hnames
        exact Or.inl hnames
      · rw [hv] at hnames
        obtain ⟨w,hw,hws⟩ := hnames
        exact Or.inr (by rw [hw,R.unique hws hown])
    have hstep : Steps LogEntry.term strict i a1 (a1.cast i src) := by
      refine .single (.cast src (htq ▸ hran) hvote ?_)
      rw [← ht1.log,← htq]
      exact upToDate_of_candidate hup
    refine .of_unlogged hs ht (.of_many hN) (Or.inl hN) hu' hlead (hsteps.trans hstep) ?_
      (.of_many hN) ?_
    · have hx := (hs1.base.steps hstep).2
      refine ⟨ht1.ident,ht1.total,ht1.term,⟨src,by simp [State.cast],hown⟩,ht1.log,ht1.lead,?_,?_,
        ?_,?_,ht1.polled,ht1.counted⟩
      · intro hcand
        obtain ⟨hr,hp,hw,hvs⟩ := ht1.candidate hcand
        refine ⟨hr,hp,hw,fun id hid => ?_⟩
        obtain ⟨v,hv,hb⟩ := hvs id hid
        exact ⟨v,hv,Or.inl hb⟩
      · exact ht1.matched
      · exact fun hst c hc => hs1.settled_steps hst hstep (ht1.commit hst c hc)
      · exact fun hst d hd => (ht1.decided hst d hd).steps hs1 hst hstep
    · intro out ho
      simp only [List.mem_singleton] at ho
      subst ho
      intro j hj haddr _
      rw [R.unique haddr hown,ht1.term]
      exact Or.inr ⟨rfl,rfl,rfl⟩

theorem Tracks.win_step (ht : Tracks R strict a i p) (hcand : p.role = .candidate)
    (hq : p.quorum ≤ p.votesReceived.card) :
    Steps LogEntry.term strict i a (a.win i) := by
  obtain ⟨hran,hlog,hnew,hvotes⟩ := ht.candidate hcand
  rw [RaftProtocol.quorum,ht.total] at hq
  obtain ⟨S,hS,hb⟩ := Roster.majority (ht.polled hcand) hq hvotes
  exact .single (.win S hran hlog hnew hS hb)

/-- A leader that knows of its own log only counts itself. -/
theorem distinct_ownMatch (R : Roster N) (own : NodeId) (log : List (LogEntry V)) :
    R.Distinct (insert own {id | id ∈ RaftProtocol.ownMatch own log}) := by
  have hall : ∀ id ∈ insert own {id | id ∈ RaftProtocol.ownMatch own log}, id = own := by
    rintro id (rfl | hid)
    · rfl
    · exact RaftProtocol.eq_of_mem_ownMatch hid
  intro v id id' hid hid' _ _
  rw [hall id hid,hall id' hid']

theorem Tracks.takeOffice (ht : Tracks R strict a i p) (hs : Sound LogEntry.term strict a)
    (hstep : Steps LogEntry.term strict i a (a.win i)) :
    Tracks R strict (a.win i) i p.takeOffice := by
  have hlead : (a.win i).lead i := Or.inr rfl
  refine ⟨ht.ident,ht.total,ht.term,ht.vote,ht.log,by simp [RaftProtocol.takeOffice,hlead],nofun,?_,
    ?_,?_,nofun,fun _ _ => distinct_ownMatch R p.nodeId p.log⟩
  · intro _ id k hk
    obtain ⟨rfl,hlen⟩ := RaftProtocol.ownMatch_lookup hk
    refine ⟨i,ht.ident,Or.inr ⟨rfl,rfl,?_⟩⟩
    rw [hlen,ht.log]
  · exact fun hst c hc => hs.settled_steps hst hstep (ht.commit hst c hc)
  · exact fun hst d hd => (ht.decided hst d hd).steps hs hst hstep

theorem Tracks.becomeLeader (ht : Tracks R strict a i p) (hs : Sound LogEntry.term strict a)
    (hstep : Steps LogEntry.term strict i a (a.win i)) (env : Env)
    (hp : p.pendingPersistLogFrom = none) :
    ∃ a', Steps LogEntry.term strict i (a.win i) a' ∧
      Tracks R strict a' i (p.becomeLeader env).1 ∧
      (∀ out ∈ (p.becomeLeader env).2, BackedOut R strict a' i out) ∧
      (p.becomeLeader env).1.role = .leader ∧
      (p.becomeLeader env).1.currentTerm = p.currentTerm ∧
      (p.becomeLeader env).1.votedFor = p.votedFor ∧
      (p.becomeLeader env).1.pendingTruncateFrom = p.pendingTruncateFrom := by
  have hs' := hs.steps hstep
  have hoffice := ht.takeOffice hs hstep
  by_cases hbuf : p.pendingProposals = []
  · rw [p.becomeLeader_of_empty env hbuf]
    refine ⟨_,.refl,{ hoffice with },fun out ho => ?_,rfl,rfl,rfl,rfl⟩
    exact hoffice.announces hs'.base rfl (RaftProtocol.broadcastHeartbeat_announces env _ out ho)
  · rw [p.becomeLeader_of_batch env hbuf hp]
    have hown : ∀ e ∈ p.batch, e.term = p.takeOffice.currentTerm := by
      intro e he
      obtain ⟨v,_,rfl⟩ := List.mem_map.mp he
      rfl
    obtain ⟨hsteps,ht',hout⟩ := hoffice.broadcastOwn hs' rfl env hown
      (by simp [RaftProtocol.batch,hbuf])
    obtain ⟨ci,ds,la,b,hframe,_⟩ :=
      (p.takeOffice.appendOwn p.batch).tryAdvanceCommit_advanced.frame
    refine ⟨_,hsteps,ht',hout,?_,?_,?_,?_⟩ <;>
      (simp only [RaftProtocol.broadcastWithEntries,hframe]; rfl)

theorem Tracks.handleRequestVoteResponse (ht : Tracks R strict a i p)
    (hs : Sound LogEntry.term strict a) (hc : Clean p) (hN : N ≠ 1) (env : Env) {src : Fin N}
    {sender : NodeId} (hown : R.owns src sender) {t : ℕ} {granted : Bool}
    (hbk : Backed R strict a src i (.requestVoteResponse t granted))
    (hnew : p.role = .candidate → t = p.currentTerm → granted = true →
      ∀ id ∈ p.votesReceived, R.owns src id → id = sender) :
    Simulated R strict a i p (p.handleMessage env sender (.requestVoteResponse t granted)) := by
  unfold RaftProtocol.handleMessage RaftProtocol.dispatch
  rcases p.bumpTerm_cases env (.requestVoteResponse t granted) with ⟨hsame,_⟩ | ⟨u,_,_,hbump⟩
  · rw [hsame]
    rcases p.handleRequestVoteResponse_cases env sender t granted with
      heq | ⟨hcand,hterm,hg,hres⟩
    · simp only [heq]
      exact ht.quiet hs (.of_many hN) hc
    · have hvoted : Tracks R strict a i
          { p with votesReceived := insert sender p.votesReceived } := by
        refine { ht with candidate := fun h => ?_, polled := fun h => ?_ }
        · obtain ⟨hran,hlog,hopen,hvotes⟩ := ht.candidate h
          refine ⟨hran,hlog,hopen,fun id hid => ?_⟩
          rcases Finset.mem_insert.mp hid with rfl | hid
          · refine ⟨src,hown,?_⟩
            rw [← ht.term,← hterm]
            exact hbk hg
          · exact hvotes id hid
        · rw [Finset.coe_insert]
          exact (ht.polled h).insert hown (hnew h hterm hg)
      rcases hres with heq | ⟨hq,heq⟩
      · simp only [heq]
        refine .of_unlogged hs ht (.of_many hN) (Or.inl hN) ?_ (fun h => ⟨h,rfl⟩) .refl hvoted
          (.of_many hN) (by simp)
        exact ⟨hc.unlogged.vote,rfl,hc.truncate,hc.append⟩
      · simp only [heq]
        have hstep := hvoted.win_step hcand hq
        obtain ⟨a',hsteps,ht',hout,_,hterm',hvote',htr⟩ :=
          hvoted.becomeLeader hs hstep env hc.append
        have hx := (hs.base.steps hstep).2
        have hwon : (a.win i).won p.currentTerm i := Or.inr ⟨ht.term,rfl⟩
        have hx' := ((hs.steps hstep).base.steps hsteps).2
        refine ⟨⟨a',hstep.trans hsteps,ht',.of_many hN,hout⟩,?_⟩
        intro t v l htorn
        rw [hterm']
        have hrest : Resting R (a.win i) i p.currentTerm p.votedFor p.log :=
          ⟨ht.term.symm,ht.vote,ht.log.symm,fun h => absurd h hN⟩
        cases htorn with
        | before => exact ⟨a.win i,hstep,hrest,fun _ => Or.inr hwon⟩
        | term hlt =>
          rw [hterm'] at hlt
          exact absurd hlt (lt_irrefl _)
        | vote =>
          rw [hterm',hvote']
          exact ⟨a.win i,hstep,hrest,fun _ => Or.inr hwon⟩
        | cut n k hn =>
          rw [htr] at hn
          simp [hc.truncate] at hn
        | after => 
          exact ⟨a',hstep.trans hsteps,ht'.resting (.of_many hN),fun _ => Or.inr (hx'.won hwon)⟩
  · -- a later term made the node a follower, which counts no votes
    obtain ⟨a1,hsteps,ht1,_,hlead⟩ := ht.bumpTerm hs env (.requestVoteResponse t granted)
    have hu := hc.bumpTerm env (.requestVoteResponse t granted)
    have hrole : (p.bumpTerm env (.requestVoteResponse t granted)).role = .follower := by
      rw [hbump]
    generalize p.bumpTerm env _ = q at *
    have heq : q.handleRequestVoteResponse env sender t granted = (q,[]) := by
      simp [RaftProtocol.handleRequestVoteResponse,hrole]
    simp only [heq]
    exact .of_unlogged hs ht (.of_many hN) (Or.inl hN) hu hlead hsteps ht1 (.of_many hN) (by simp)

theorem Tracks.candidacy (ht : Tracks R strict a i p) (hs : Sound LogEntry.term strict a)
    (env : Env) : Tracks R strict (a.campaign i) i (p.candidacy env) := by
  have hstep : Steps LogEntry.term strict i a (a.campaign i) := .single .campaign
  refine ⟨ht.ident,ht.total,by simp [State.campaign,RaftProtocol.candidacy,ht.term],
    ⟨i,by simp [State.campaign],ht.ident⟩,ht.log,
    by simp [State.campaign,RaftProtocol.candidacy],?_,nofun,?_,?_,fun _ => ?_,nofun⟩
  · intro _
    have hterm : (a.campaign i).term i = a.term i + 1 := by simp [State.campaign]
    rw [hterm]
    refine ⟨Or.inr ⟨rfl,rfl⟩,by simp [State.campaign],fun hw => ?_,fun id hid => ?_⟩
    · have := hs.base.won_le hw
      omega
    · rw [Finset.mem_singleton.mp hid]
      exact ⟨i,ht.ident,Or.inr ⟨rfl,rfl,rfl⟩⟩
  · exact fun hst c hc => hs.settled_steps hst hstep (ht.commit hst c hc)
  · exact fun hst d hd => (ht.decided hst d hd).steps hs hst hstep
  · intro v x y hx hy _ _
    rw [Finset.mem_singleton.mp hx,Finset.mem_singleton.mp hy]

theorem Tracks.elect (ht : Tracks R strict a i p) (hs : Sound LogEntry.term strict a) (env : Env)
    (hq : p.quorum ≤ 1) : Steps LogEntry.term strict i a (a.campaign i) ∧
      Steps LogEntry.term strict i (a.campaign i) ((a.campaign i).win i) := by
  have hcand := ht.candidacy hs env
  refine ⟨.single .campaign,hcand.win_step rfl ?_⟩
  rw [show (p.candidacy env).votesReceived = {p.nodeId} from rfl,Finset.card_singleton]
  exact hq

theorem Tracks.startElection (ht : Tracks R strict a i p) (hs : Sound LogEntry.term strict a)
    (hsolo : Solo a i) (hc : Clean p) (env : Env) :
    Simulated R strict a i p (p.startElection env) := by
  have hcamp : Steps LogEntry.term strict i a (a.campaign i) := .single .campaign
  have hs1 := hs.steps hcamp
  have hcand := ht.candidacy hs env
  rcases p.startElection_cases env with ⟨hq,heq⟩ | ⟨hq,lost,pend,heq⟩
  · rw [heq]
    have hstep := (ht.elect hs env hq).2
    have hs2 := hs1.steps hstep
    obtain ⟨a',hsteps,ht',hout,hrole',hterm',hvote',htr⟩ :=
      hcand.becomeLeader hs1 hstep env hc.append
    have hN : N = 1 := by
      rw [RaftProtocol.quorum,ht.total] at hq
      have := i.isLt
      omega
    have hsolo2 : Solo ((a.campaign i).win i) i := .of_lead hs2.base (Or.inr rfl)
    have hsolo' : Solo a' i := .of_lead (hs2.steps hsteps).base (ht'.lead.mp hrole')
    have hwin : ∀ {v}, R.Names v (some i) →
        Resting R ((a.campaign i).win i) i (p.currentTerm + 1) v p.log := fun hv =>
      ⟨by simp [State.win,State.campaign,ht.term],by simpa [State.win,State.campaign] using hv,
        by simp [State.win,State.campaign,ht.log],hsolo2⟩
    refine ⟨⟨a',(hcamp.trans hstep).trans hsteps,ht',hsolo',hout⟩,?_⟩
    intro t v l htorn
    cases htorn with
    | before => exact ⟨a,.refl,ht.resting hsolo,fun _ => Or.inl hN⟩
    | term hlt =>
      rw [hterm']
      -- with an old vote for itself the node will resume as leader, so it has to have won
      by_cases hv : a.vote i = some i
      · refine ⟨_,hcamp.trans hstep,?_,fun _ => Or.inl hN⟩
        exact hwin (hv ▸ ht.vote)
      · refine ⟨a.observe i (p.currentTerm + 1) (a.vote i),
          .single (.observe _ _ (by rw [ht.term]; exact Nat.lt_succ_self _)),?_,
          fun _ => Or.inl hN⟩
        refine ⟨by simp [State.observe,RaftProtocol.candidacy],
          by simpa [State.observe] using ht.vote,by simp [State.observe,ht.log],fun _ _ hv' => ?_⟩
        simp only [State.observe,Function.update_self] at hv'
        exact absurd hv' hv
    | vote =>
      rw [hterm',hvote']
      exact ⟨_,hcamp.trans hstep,hwin ⟨i,rfl,ht.ident⟩,fun _ => Or.inl hN⟩
    | cut n k hn =>
      rw [htr] at hn
      simp [RaftProtocol.candidacy,hc.truncate] at hn
    | after =>
      exact ⟨a',(hcamp.trans hstep).trans hsteps,ht'.resting hsolo',fun _ => Or.inl hN⟩
  · rw [heq]
    have hN : N ≠ 1 := by
      rintro rfl
      simp [RaftProtocol.quorum,ht.total] at hq
    refine .of_unlogged hs ht hsolo (Or.inl hN) ?_ ?_ hcamp { hcand with } (.of_many hN) ?_
    · exact ⟨.moved _ (Nat.lt_succ_self _),rfl,hc.truncate,hc.append⟩
    · intro h
      cases h
    · intro out ho j hj _
      simp only [List.mem_singleton] at ho
      subst ho
      refine ⟨ht.ident,Or.inr ⟨by rw [ht.term],rfl⟩,?_,?_⟩ <;>
        simp [State.campaign,ht.term,RaftProtocol.lastLogIndex,lastLogTerm_eq_lastTerm,ht.log]

theorem Tracks.onTick (ht : Tracks R strict a i p) (hs : Sound LogEntry.term strict a)
    (hsolo : Solo a i) (hc : Clean p) (env : Env) : Simulated R strict a i p (p.onTick env) := by
  rcases p.onTick_cases env with heq | ⟨hl,heq⟩ | ⟨_,heq⟩
  · rw [heq]
    exact ht.quiet hs hsolo hc
  · rw [heq]
    exact ht.heartbeat hs hsolo hc hl env
  · rw [heq]
    exact ht.startElection hs hsolo hc env

theorem Tracks.handleAppendEntriesResponse (ht : Tracks R strict a i p)
    (hs : Sound LogEntry.term strict a) (hc : Clean p) (hN : N ≠ 1) (env : Env) {src : Fin N}
    (hne : src ≠ i) {sender : NodeId} (hown : R.owns src sender) {t : ℕ} {success : Bool}
    {mi ct ci : Option ℕ}
    (hbk : Backed R strict a src i (.appendEntriesResponse t success mi ct ci))
    (hnew : strict → p.Counts t success mi → ∀ id ∈ p.matchIndex, R.owns src id → id = sender) :
    Simulated R strict a i p
      (p.handleMessage env sender (.appendEntriesResponse t success mi ct ci)) := by
  obtain ⟨a1,hsteps,ht1,hle,hlead⟩ :=
    ht.bumpTerm hs env (.appendEntriesResponse t success mi ct ci)
  have hs1 := hs.steps hsteps
  have hbk1 := Backed.mono hs.base (hs.base.steps hsteps).2 hbk
  have hu := hc.bumpTerm env (.appendEntriesResponse t success mi ct ci)
  have hu' := hu.handleAppendEntriesResponse sender t success mi ct ci
  have hqp := p.bumpTerm_eq_or_lt env (.appendEntriesResponse t success mi ct ci)
  unfold RaftProtocol.handleMessage RaftProtocol.dispatch
  generalize p.bumpTerm env _ = q at *
  rcases q.handleAppendEntriesResponse_cases sender t success mi ct ci with
    heq | ⟨hl,hterm,⟨hsucc,k,rfl,hk,heq⟩ | ⟨next,out,hann,heq⟩⟩
  · simp only [heq] at hu' ⊢
    exact .of_unlogged hs ht (.of_many hN) (Or.inl hN) hu' hlead hsteps ht1 (.of_many hN) (by simp)
  · have hmatch : Tracks R strict a1 i
        { q with
          matchIndex := q.matchIndex.insert sender (some k)
          nextIndex := q.nextIndex.insert sender (k + 1) } := by
      refine { ht1 with matched := ?_, counted := ?_ }
      · intro _ id n hn
        by_cases hid : id = sender
        · subst hid
          simp only [AList.lookup_insert,Option.some.injEq] at hn
          refine ⟨src,hown,?_⟩
          rw [← hn,← ht1.term,← hterm]
          exact hbk1 hsucc k rfl
        · rw [AList.lookup_insert_ne hid] at hn
          exact ht1.matched hl id n hn
      · intro _ hst
        -- a node that has just stepped down does not lead
        obtain rfl : q = p := hqp.resolve_right fun hlt => by
          have := (hlead hl).2
          omega
        refine ((ht1.counted hl hst).insert hown ?_).mono ?_
        · rintro id (rfl | hid) hsrc
          · exact absurd (R.unique hsrc ht1.ident) hne
          · exact hnew hst ⟨hl,hterm,hsucc,k,rfl,hk⟩ id hid hsrc
        · rintro id (rfl | hid)
          · exact Or.inr (Or.inl rfl)
          · exact ((AList.mem_insert _).mp hid).imp_right Or.inr
    have hadv := hmatch.tryAdvanceCommit hs1.base hl
    simp only [heq] at hu' ⊢
    refine .of_unlogged hs ht (.of_many hN) (Or.inl hN) hu' (fun _ => ?_) hsteps hadv
      (.of_many hN) (by simp)
    obtain ⟨ci',ds,la,b,hframe,_⟩ := ({ q with
      matchIndex := q.matchIndex.insert sender (some k)
      nextIndex := q.nextIndex.insert sender (k + 1) } :
        RaftProtocol V).tryAdvanceCommit_advanced.frame
    rw [hframe]
    exact hlead hl
  · simp only [heq] at hu' ⊢
    refine .of_unlogged hs ht (.of_many hN) (Or.inl hN) hu' hlead hsteps { ht1 with }
      (.of_many hN) ?_
    intro out' ho
    simp only [List.mem_singleton] at ho
    subst ho
    exact ht1.announces hs1.base hl hann

theorem termAt_eq {l : List (LogEntry V)} {n : ℕ} {e : LogEntry V} (h : l[n]? = some e) :
    RaftProtocol.termAt l n = e.term := by
  simp [RaftProtocol.termAt,h]

/-- Entries that pass the term comparison are the leader's entries. -/
theorem matched_prefix {book : ℕ → List (LogEntry V)} {l b es : List (LogEntry V)}
    {prev : Option ℕ} {prevTerm m : ℕ} (hl : Grown LogEntry.term book l)
    (hb : Grown LogEntry.term book b) (hc : RaftProtocol.Carries b prev prevTerm es)
    (hok : RaftProtocol.prevOk l prev prevTerm = true)
    (hm : RaftProtocol.Matches l (RaftProtocol.startAt prev) es m) (hme : m ≤ es.length)
    (hlen : RaftProtocol.startAt prev + m ≤ l.length) :
    l.take (RaftProtocol.startAt prev + m) = b.take (RaftProtocol.startAt prev + m) := by
  have hclen := hc.length
  -- equal terms at the last index below `start + m` are enough
  have hlast : ∀ n, n + 1 = RaftProtocol.startAt prev + m →
      RaftProtocol.termAt l n = RaftProtocol.termAt b n →
      l.take (RaftProtocol.startAt prev + m) = b.take (RaftProtocol.startAt prev + m) := by
    intro n hn ht
    have hnl := List.getElem?_eq_getElem (show n < l.length by omega)
    have hnb := List.getElem?_eq_getElem (show n < b.length by omega)
    rw [termAt_eq hnl,termAt_eq hnb] at ht
    rw [← hn]
    exact hl.matching hb hnl hnb ht
  cases m with
  | zero =>
    cases prev with
    | none => simp [RaftProtocol.startAt]
    | some j =>
      simp only [RaftProtocol.prevOk,Bool.and_eq_true,decide_eq_true_eq] at hok
      refine hlast j rfl ?_
      rw [hok.2,hc.term j rfl]
  | succ m =>
    refine hlast (RaftProtocol.startAt prev + m) (by omega) ?_
    have hes := List.getElem?_eq_getElem (show m < es.length by omega)
    rw [hm m _ (Nat.lt_succ_self m) hes]
    have hb' : b[RaftProtocol.startAt prev + m]? = some es[m] := by
      rw [← hes,hc.rest,List.getElem?_drop]
    rw [termAt_eq hb']

/-- A consistent `AppendEntries` leaves exactly the log it carries. -/
theorem adopted_log {book : ℕ → List (LogEntry V)} {b es : List (LogEntry V)} {prev : Option ℕ}
    {prevTerm : ℕ} {r : RaftProtocol V} (hl : Grown LogEntry.term book p.log)
    (hb : Grown LogEntry.term book b) (hc : RaftProtocol.Carries b prev prevTerm es)
    (hok : RaftProtocol.prevOk p.log prev prevTerm = true)
    (hr : p.Adopted (RaftProtocol.startAt prev) es r)
    (h0 : RaftProtocol.startAt prev + es.length ≠ 0) : r.log = b := by
  have hclen := hc.length
  cases hr with
  | kept hlen hm =>
    have hlen' : p.log.length = b.length := by omega
    have hp := matched_prefix hl hb hc hok hm (le_refl _) (by omega)
    rw [hclen,List.take_length,← hlen',List.take_length] at hp
    exact hp
  | cut _ hlen hm =>
    have hp := matched_prefix hl hb hc hok hm (le_refl _) (by omega)
    simp only
    rw [hp,hclen,List.take_length]
  | extended m hlt hlen hm =>
    have hp := matched_prefix hl hb hc hok hm hlt.le hlen.le
    rw [hlen,List.take_length] at hp
    simp only
    rw [hp,hc.rest,List.drop_drop,hlen,List.take_append_drop]
  | replaced m e he hlen hm =>
    have hlt := (List.getElem?_eq_some_iff.mp he).1
    have hp := matched_prefix hl hb hc hok hm hlt.le hlen.le
    simp only
    rw [hp,hc.rest,List.drop_drop,List.take_append_drop]

/-- Nothing is dropped that the leader of the message's term has stored here before. -/
def KeepsOwn (p : RaftProtocol V) : RaftMessage V → Prop
  | .appendEntries t _ prev prevTerm es _ =>
    p.currentTerm ≤ t → (t = p.currentTerm → p.role ≠ .leader) →
      RaftProtocol.prevOk p.log prev prevTerm = true →
      RaftProtocol.verifiedEnd prev es.length ≠ 0 →
      ∀ e ∈ p.log.drop (RaftProtocol.verifiedEnd prev es.length), e.term ≠ t
  | _ => True

instance (p : RaftProtocol V) (msg : RaftMessage V) : Decidable (KeepsOwn p msg) :=
  match msg with
  | .appendEntries .. => inferInstanceAs (Decidable (_ → _ → _ → _ → _))
  | .requestVote .. => isTrue trivial
  | .requestVoteResponse .. => isTrue trivial
  | .appendEntriesResponse .. => isTrue trivial
  | .forward .. => isTrue trivial

theorem Tracks.accept (ht : Tracks R strict a i p) (hs : Sound LogEntry.term strict a)
    (hl : ¬ a.lead i) {k : ℕ} {q : RaftProtocol V} {tr pe : Option ℕ}
    (hstep : Steps LogEntry.term strict i a (a.accept i k)) (hrole : p.role = .follower)
    (hq : q = { p with
      log := (a.book (a.term i)).take k
      pendingTruncateFrom := tr
      pendingPersistLogFrom := pe }) : Tracks R strict (a.accept i k) i q := by
  subst hq
  refine ⟨ht.ident,ht.total,ht.term,ht.vote,by simp [State.accept],?_,?_,?_,?_,?_,?_,?_⟩
  · simp [State.accept,hrole,hl]
  · simp [hrole]
  · simp [hrole]
  · exact fun hst c hc => hs.settled_steps hst hstep (ht.commit hst c hc)
  · exact fun hst d hd => (ht.decided hst d hd).steps hs hst hstep
  · simp [hrole]
  · simp [hrole]

/-- What a follower holds after a consistent message of its leader. -/
theorem Tracks.adopt (ht : Tracks R strict a i p) (hs : Sound LogEntry.term strict a)
    (hrole : p.role = .follower) {src : Fin N} {k : ℕ} {prev : Option ℕ} {prevTerm : ℕ}
    {es : List (LogEntry V)} {r : RaftProtocol V} (hwon : a.won (a.term i) src)
    (hlo : (a.poll (a.term i) src).length ≤ k) (hhi : k ≤ (a.book (a.term i)).length)
    (hcar : RaftProtocol.Carries ((a.book (a.term i)).take k) prev prevTerm es)
    (hok : RaftProtocol.prevOk p.log prev prevTerm = true)
    (hr : p.Adopted (RaftProtocol.startAt prev) es r)
    (hfresh : strict → k ≠ 0 → ReplicatedLog.Fresh LogEntry.term a i k) :
    ∃ a', Steps LogEntry.term strict i a a' ∧ Tracks R strict a' i r ∧
      (k ≠ 0 → a'.log i = (a.book (a.term i)).take k ∧ a'.ack i (a.term i) k) := by
  have hclen := hcar.length
  rw [List.length_take,Nat.min_eq_left hhi] at hclen
  have hnl : ¬ a.lead i := fun h => by
    have := ht.lead.mpr h
    rw [hrole] at this
    cases this
  by_cases h0 : k = 0
  · rw [hr.eq_of_zero (by omega)]
    exact ⟨a,.refl,ht,fun h => absurd h0 h⟩
  · have hg : Grown LogEntry.term a.book p.log := by
      rw [ht.log]
      exact hs.base.log_grown i
    have hlog := adopted_log hg ((hs.base.book_grown (a.term i)).take k) hcar hok hr (by omega)
    have hstep : Steps LogEntry.term strict i a (a.accept i k) :=
      .single (.accept src k hwon hnl hlo hhi fun hst => hfresh hst h0)
    obtain ⟨tr,pe,hframe⟩ := hr.frame
    rw [hlog] at hframe
    refine ⟨a.accept i k,hstep,ht.accept hs hnl hstep hrole hframe,fun _ => ?_⟩
    exact ⟨by simp [State.accept],Or.inr ⟨rfl,rfl,rfl⟩⟩

/-- A message that keeps the node's own entries verifies all those of its term. -/
theorem KeepsOwn.fresh {l : NodeId} {prev lc : Option ℕ} {prevTerm k : ℕ} {es : List (LogEntry V)}
    (h : KeepsOwn p (.appendEntries (a.term i) l prev prevTerm es lc)) (hlog : p.log = a.log i)
    (hle : p.currentTerm ≤ a.term i) (hnl : a.term i = p.currentTerm → p.role ≠ .leader)
    (hok : RaftProtocol.prevOk p.log prev prevTerm = true)
    (hk : RaftProtocol.startAt prev + es.length = k) (h0 : k ≠ 0) :
    ReplicatedLog.Fresh LogEntry.term a i k := by
  intro n e he het
  by_contra hn
  have hmem : e ∈ p.log.drop k := by
    refine List.mem_of_getElem? (i := n - k) ?_
    rw [List.getElem?_drop,Nat.add_sub_cancel' (by omega),hlog]
    exact he
  simp only [KeepsOwn,RaftProtocol.verifiedEnd_eq,hk] at h
  exact h hle hnl hok h0 e hmem het

/-- The conflicting end of the log may be gone before the new entries are stored. -/
theorem Tracks.shrink (ht : Tracks R strict a i p) (hnl : ¬ a.lead i) {src : Fin N}
    (hwon : a.won (a.term i) src) {k start n : ℕ} {es : List (LogEntry V)} {r : RaftProtocol V}
    (hrest : es = ((a.book (a.term i)).take k).drop start) {q : RaftProtocol V}
    (hlog : q.log = p.log) (hr : q.Adopted start es r) (hp : q.pendingPersistLogFrom = none)
    (hq : q.pendingTruncateFrom = none) (hn : r.pendingTruncateFrom = some n) {n' : ℕ}
    (hn' : r.pendingPersistLogFrom = some n') :
    Steps LogEntry.term strict i a (a.shrink i n) := by
  obtain ⟨m,e,hnm,he,hlen,hne⟩ := hr.conflict hp hq hn hn'
  obtain ⟨x,hx⟩ : ∃ x, q.log[n]? = some x := ⟨_,List.getElem?_eq_getElem hlen⟩
  have hbook : (a.book (a.term i))[n]? = some e := by
    have hes : ((a.book (a.term i)).take k)[n]? = some e := by
      rw [hnm,← List.getElem?_drop,← hrest]
      exact he
    exact ReplicatedLog.prefix_getElem? (List.take_prefix k _) hes
  refine .single (.shrink src n x e hwon hnl ?_ hbook ?_)
  · rw [← ht.log,← hlog]
    exact hx
  · rw [← termAt_eq hx]
    exact hne

theorem Tracks.handleAppendEntries (ht : Tracks R strict a i p)
    (hs : Sound LogEntry.term strict a) (hc : Clean p) (hN : N ≠ 1) (env : Env) (sender : NodeId)
    {src : Fin N} {t : ℕ} {l : NodeId} {prev : Option ℕ} {prevTerm : ℕ} {es : List (LogEntry V)}
    {lc : Option ℕ} (hbk : Backed R strict a src i (.appendEntries t l prev prevTerm es lc))
    (hkeep : strict → KeepsOwn p (.appendEntries t l prev prevTerm es lc)) :
    Simulated R strict a i p
      (p.handleMessage env sender (.appendEntries t l prev prevTerm es lc)) := by
  obtain ⟨a1,hsteps,ht1,hle,hlead⟩ :=
    ht.bumpTerm hs env (.appendEntries t l prev prevTerm es lc)
  have hs1 := hs.steps hsteps
  obtain ⟨_,hwon,⟨k,hlo,hhi,hcar⟩,hlc⟩ := Backed.mono hs.base (hs.base.steps hsteps).2 hbk
  have hu := hc.bumpTerm env (.appendEntries t l prev prevTerm es lc)
  have hqp := p.bumpTerm_eq_or_lt env (.appendEntries t l prev prevTerm es lc)
  unfold RaftProtocol.handleMessage RaftProtocol.dispatch
  generalize p.bumpTerm env _ = q at *
  have hfollow : ¬ a1.lead i → Tracks R strict a1 i (q.follow env l) := by
    intro hnl
    refine { ht1 with
      lead := ?_, candidate := nofun, matched := nofun, polled := nofun, counted := nofun }
    simp [RaftProtocol.follow,hnl]
  rcases q.handleAppendEntries_cases env t l prev prevTerm es lc hu.append hu.truncate
    with ⟨_,heq⟩ | ⟨hqt,hnl,⟨_,ct,ci,heq⟩ | ⟨hok,r,f,hr,hf,heq⟩⟩
  · simp only [heq]
    refine .of_unlogged hs ht (.of_many hN) (Or.inl hN) hu hlead hsteps ht1 (.of_many hN) ?_
    simp [BackedOut,Backed]
  · have hnl' : ¬ a1.lead i := fun h => hnl (by have := hle t rfl; omega) (ht1.lead.mpr h)
    simp only [heq]
    refine .of_unlogged hs ht (.of_many hN) (Or.inl hN) ?_ ?_ hsteps (hfollow hnl')
      (.of_many hN) ?_
    · exact ⟨hu.vote,hu.log,hu.truncate,hu.append⟩
    · simp [RaftProtocol.follow]
    · simp [BackedOut,Backed]
  · have htq : t = q.currentTerm := by
      have := hle t rfl
      omega
    have hta : a1.term i = t := by rw [htq,ht1.term]
    have hnl' : ¬ a1.lead i := fun h => hnl htq (ht1.lead.mpr h)
    have hclen := hcar.length
    rw [List.length_take,Nat.min_eq_left hhi] at hclen
    subst hta
    have hfresh : strict → k ≠ 0 → ReplicatedLog.Fresh LogEntry.term a1 i k := by
      intro hst h0
      refine (hkeep hst).fresh (hu.log.symm.trans ht1.log) ?_ ?_ (hu.log ▸ hok) hclen h0
      · have hmono := (hs.base.steps hsteps).2.term i
        rw [ht.term]
        exact hmono
      · intro hpt hpl
        rcases hqp with rfl | hlt
        · exact hnl htq hpl
        · omega
    obtain ⟨a2,hsteps2,ht2,hacc⟩ := (hfollow hnl').adopt hs1 rfl hwon hlo hhi hcar hok hr hfresh
    have hs2 := hs1.steps hsteps2
    have hx2 := (hs1.base.steps hsteps2).2
    have hadv := ht2.advanced (fun hst c hwhy => by
      obtain ⟨lcv,last,hlcv,hlast,rfl⟩ := hwhy
      rw [RaftProtocol.verifiedIndex_eq,hclen] at hlast
      by_cases h0 : k = 0
      · simp [h0] at hlast
      · rw [if_neg h0] at hlast
        have hset := (hlc hst lcv hlcv).weaken (show min lcv last + 1 ≤ lcv + 1 by omega)
        refine hset.mono hx2 (hx2.term i) ?_
        rw [(hacc h0).1]
        refine ReplicatedLog.take_prefix_take ?_
        have := Option.some.inj hlast
        omega) hf
    obtain ⟨ci,ds,la,b,rfl,_⟩ := hf.frame
    obtain ⟨tr,pe,hrframe⟩ := hr.frame
    have hrole : r.role = .follower := by rw [hrframe]; rfl
    have hterm : r.currentTerm = q.currentTerm := by rw [hrframe]; rfl
    have hvote : r.votedFor = q.votedFor := by rw [hrframe]; rfl
    simp only [heq]
    refine ⟨⟨a2,hsteps.trans hsteps2,{ hadv with },.of_many hN,?_⟩,?_⟩
    · intro out ho
      rcases List.mem_cons.mp ho with rfl | ho
      · intro j hj haddr hsucc n hn
        rw [RaftProtocol.verifiedIndex_eq,hclen] at hn
        by_cases h0 : k = 0
        · simp [h0] at hn
        · rw [if_neg h0] at hn
          have hnk : n + 1 = k := by
            have := Option.some.inj hn
            omega
          rw [hnk,hterm,← htq]
          exact (hacc h0).2
      · obtain ⟨v,_,rfl⟩ := List.mem_map.mp ho
        exact .forward ⟨v,0,rfl⟩
    · intro t' v' l' htorn
      have hvac : ∀ {x : Abstract N V}, r.role = .leader → N = 1 ∨ x.won r.currentTerm i := by
        intro x h
        rw [hrole] at h
        cases h
      cases htorn with
      | before => exact ⟨a,.refl,ht.resting (.of_many hN),hvac⟩
      | term hlt =>
        obtain ⟨a'',hsteps',hrest⟩ := ht.observed hN hlt
        exact ⟨a'',hsteps',hrest,hvac⟩
      | vote =>
        refine ⟨a1,hsteps,?_,hvac⟩
        have hrest := ht1.resting (.of_many hN)
        rw [hu.log,← hterm,← hvote] at hrest
        exact hrest
      | cut n n' hn hn' =>
        have hstep : Steps LogEntry.term strict i a1 (a1.shrink i n) :=
          ht1.shrink (q := q.follow env l) hnl' hwon hcar.rest rfl hr hu.append hu.truncate hn hn'
        refine ⟨a1.shrink i n,hsteps.trans hstep,⟨?_,?_,?_,.of_many hN⟩,hvac⟩
        · exact (ht1.term.symm).trans hterm.symm
        · rw [hvote]
          exact ht1.vote
        · simp [State.shrink,← ht1.log,hu.log]
      | after =>
        exact ⟨a2,hsteps.trans hsteps2,hadv.resting (.of_many hN),hvac⟩

/-- An answer that is counted comes from a member not counted under another identity. -/
def Unseen (R : Roster N) (strict : Prop) (p : RaftProtocol V) (src : Fin N) (sender : NodeId) :
    RaftMessage V → Prop
  | .requestVoteResponse t granted => p.role = .candidate → t = p.currentTerm → granted = true →
      ∀ id ∈ p.votesReceived, R.owns src id → id = sender
  | .appendEntriesResponse t success mi _ _ => strict → p.Counts t success mi →
      ∀ id ∈ p.matchIndex, R.owns src id → id = sender
  | _ => True

structure Admits (R : Roster N) (strict : Prop) (a : Abstract N V) (i : Fin N)
    (p : RaftProtocol V) (src : Fin N) (sender : NodeId) (msg : RaftMessage V) : Prop where
  other : src ≠ i
  owner : R.owns src sender
  backed : Backed R strict a src i msg
  keeps : strict → KeepsOwn p msg
  unseen : Unseen R strict p src sender msg

/-- What wakes node `i`, if it is a message, is one that the node may be handed. -/
def Welcome (R : Roster N) (strict : Prop) (a : Abstract N V) (i : Fin N) (p : RaftProtocol V)
    (input : Input V) : Prop :=
  ∀ sender msg, input = .message sender msg → ∃ src, Admits R strict a i p src sender msg

theorem Tracks.handle (ht : Tracks R strict a i p) (hs : Sound LogEntry.term strict a)
    (hsolo : Solo a i) (hc : Clean p) (env : Env) {input : Input V}
    (hin : Welcome R strict a i p input) : Simulated R strict a i p (p.handle env input) := by
  cases input with
  | propose v => exact ht.propose hs hsolo hc env v
  | tick => exact ht.onTick hs hsolo hc env
  | message sender msg =>
    obtain ⟨src,h⟩ := hin sender msg rfl
    have hN : N ≠ 1 := by
      rintro rfl
      exact h.other (Subsingleton.elim _ _)
    cases msg with
    | requestVote t c li lt => exact ht.handleRequestVote hs hc hN env sender h.backed
    | requestVoteResponse t granted =>
      exact ht.handleRequestVoteResponse hs hc hN env h.owner h.backed h.unseen
    | appendEntries t l prev prevTerm es lc =>
      exact ht.handleAppendEntries hs hc hN env sender h.backed h.keeps
    | appendEntriesResponse t success mi ct ci =>
      exact ht.handleAppendEntriesResponse hs hc hN env h.other h.owner h.backed h.unseen
    | forward v hops => exact ht.handleForward hs hsolo hc env sender v hops

end
end Raft
end Daccord
