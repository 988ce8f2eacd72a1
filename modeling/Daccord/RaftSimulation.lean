import Daccord.RaftRefinement

/-! Turns, restarts and the whole cluster as steps of the replicated log. -/
namespace Daccord
namespace Raft

open ReplicatedLog (State Base Sound Steps Moves Settled)

variable {V : Type} {N : ℕ}

section
variable {R : Roster N} {strict : Prop} {a a' : Abstract N V} {i : Fin N}
  {p q : RaftProtocol V}

/-- Stored commit index and decisions are settled. -/
def Saved (strict : Prop) (a : Abstract N V) (i : Fin N) (st : RaftStorage V) : Prop :=
  strict → (∀ c, st.commitIndex = some c →
      Settled LogEntry.term a (a.term i) (a.log i) (c + 1)) ∧
    ∀ slot, slot ∈ st.decisions → Settled LogEntry.term a (a.term i) (a.log i) (slot + 1)

theorem Saved.steps (hs : Sound LogEntry.term strict a)
    (hsteps : Steps LogEntry.term strict i a a') {j : Fin N} {st : RaftStorage V}
    (h : Saved strict a j st) : Saved strict a' j st := fun hst =>
  ⟨fun c hc => hs.settled_steps hst hsteps ((h hst).1 c hc),
    fun slot hslot => hs.settled_steps hst hsteps ((h hst).2 slot hslot)⟩

theorem Adapter.exact_strip (l : List (LogEntry V)) : Adapter.exact.stripLogEntries l = l := by
  have h : LogEntry.map (Adapter.exact (V := V)).strip = id := rfl
  rw [Adapter.stripLogEntries,h,List.map_id]

theorem Adapter.exact_wrap (l : List (LogEntry V)) : Adapter.exact.wrapLogEntries l = l := by
  have h : LogEntry.map (Adapter.exact (V := V)).wrap = id := rfl
  rw [Adapter.wrapLogEntries,h,List.map_id]

structure NodeOk (R : Roster N) (strict : Prop) (a : Abstract N V) (i : Fin N)
    (n : RaftNode V V) : Prop where
  tracks : Tracks R strict a i n.protocol
  solo : Solo a i
  synced : Synced .exact n
  saved : Saved strict a i n.storage

theorem NodeOk.apart (hs : Sound LogEntry.term strict a)
    (hsteps : Steps LogEntry.term strict i a a') {j : Fin N} (hj : j ≠ i) {n : RaftNode V V}
    (h : NodeOk R strict a j n) : NodeOk R strict a' j n := by
  refine ⟨h.tracks.apart hs hsteps hj,.of_many ?_,h.synced,h.saved.steps hs hsteps⟩
  rintro rfl
  exact hj (Subsingleton.elim _ _)

theorem maxIndex_cases {x y : Option ℕ} {c : ℕ} (h : RaftProtocol.maxIndex x y = some c) :
    x = some c ∨ y = some c := by
  cases x with
  | none => exact Or.inr h
  | some m =>
    cases y with
    | none => exact Or.inl h
    | some n =>
      have hc : max m n = c := Option.some.inj h
      rcases Nat.le_total m n with hle | hle
      · right
        rw [← hc,Nat.max_eq_right hle]
      · left
        rw [← hc,Nat.max_eq_left hle]

theorem mem_of_max_decided {st : RaftStorage V} {f : ℕ × V → ℕ × V} (hf : ∀ d, (f d).1 = d.1)
    {m : ℕ} (h : ((st.loadDecisions.map f).map Prod.fst).max? = some m) : m ∈ st.decisions := by
  have hmem := List.max?_mem h
  simp only [List.mem_map,RaftStorage.loadDecisions] at hmem
  obtain ⟨_,⟨_,⟨⟨slot,v⟩,hd,rfl⟩,rfl⟩,rfl⟩ := hmem
  rw [hf]
  exact AList.mem_keys.mpr (List.mem_map.mpr ⟨⟨slot,v⟩,hd,rfl⟩)

theorem Tracks.applied (ht : Tracks R strict a i p) :
    Tracks R strict a i p.applyCommittedEntries := by
  obtain ⟨ds,la,heq,hds⟩ := p.applyCommittedEntries_frame
  rw [heq]
  refine { ht with decided := ?_ }
  intro hst d hd
  rcases List.mem_append.mp hd with hd | hd
  · exact ht.decided hst d hd
  · obtain ⟨c,e,hc,hle,he,hv⟩ := hds d hd
    rw [ht.log] at he
    exact ⟨(ht.commit hst c hc).weaken (by omega),e,he,hv⟩

theorem Saved.capped {st : RaftStorage V} (h : Saved strict a i st) (hst : strict)
    {f : ℕ × V → ℕ × V} (hf : ∀ d, (f d).1 = d.1) {l : List (LogEntry V)} {c : ℕ}
    (hc : RaftProtocol.capIndex l (RaftProtocol.maxIndex st.commitIndex
      ((st.loadDecisions.map f).map Prod.fst).max?) = some c) :
    Settled LogEntry.term a (a.term i) (a.log i) (c + 1) := by
  cases hm : RaftProtocol.maxIndex st.commitIndex ((st.loadDecisions.map f).map Prod.fst).max? with
  | none =>
    rw [hm] at hc
    cases hc
  | some m =>
    rw [hm] at hc
    obtain ⟨n,_,hn⟩ := Option.map_eq_some_iff.mp hc
    have hle : c + 1 ≤ m + 1 := by omega
    rcases maxIndex_cases hm with hm | hm
    · exact ((h hst).1 m hm).weaken hle
    · exact ((h hst).2 m (mem_of_max_decided hf hm)).weaken hle

theorem NodeOk.boot (hs : Sound LogEntry.term strict a) (env : Env) (cfg : RaftConfig)
    {id : NodeId} (hid : R.owns i id) {st : RaftStorage V} {t : ℕ} {v : Option NodeId} {l : List (LogEntry V)}
    (hrest : Resting R a i t v l) (hst : Holds .exact st t v l) (hsaved : Saved strict a i st) :
    ∃ a', Steps LogEntry.term strict i a a' ∧
      NodeOk R strict a' i (.boot .exact env id N cfg st) ∧
      ((RaftNode.boot .exact env id N cfg st).protocol.role = .leader → N = 1) := by
  set p0 : RaftProtocol V := .new env id N cfg
  set q := recovering .exact env p0 st
  have hprot : (RaftNode.boot .exact env id N cfg st).protocol = q.applyCommittedEntries :=
    recover_eq .exact env p0 st
  have hlog : q.log = a.log i := by
    change Adapter.exact.wrapLogEntries st.log = a.log i
    rw [Adapter.exact_wrap,hst.log,Adapter.exact_strip,hrest.log]
  have hterm : q.currentTerm = a.term i := by
    change st.term = a.term i
    rw [hst.term,hrest.term]
  have hvote : R.Names q.votedFor (a.vote i) := by
    change R.Names st.votedFor _
    rw [hst.votedFor]
    exact hrest.vote
  have hcommit : strict → ∀ c, q.commitIndex = some c →
      Settled LogEntry.term a (a.term i) (a.log i) (c + 1) :=
    fun hs' c hc => hsaved.capped hs' (fun _ => rfl) hc
  -- what holds whichever role the node resumes in
  have key : ∀ a', Steps LogEntry.term strict i a a' → a'.term = a.term → a'.vote = a.vote →
      a'.log = a.log → Solo a' i → (q.role = .leader ↔ a'.lead i) → q.role ≠ .candidate →
      (q.role = .leader → ∀ id k, q.matchIndex.lookup id = some (some k) →
        ∃ v, R.owns v id ∧ a'.ack v (a'.term i) (k + 1)) →
      (q.role = .leader → R.Distinct (insert q.nodeId {x | x ∈ q.matchIndex})) →
      NodeOk R strict a' i (.boot .exact env id N cfg st) := by
    intro a' hsteps ht hv hl hsolo hlead hcand hmatch hcount
    refine ⟨?_,hsolo,.boot .exact env id N cfg st,hsaved.steps hs hsteps⟩
    rw [hprot]
    refine Tracks.applied ⟨hid,rfl,by rw [ht]; exact hterm,by rw [hv]; exact hvote,
      by rw [hl]; exact hlog,hlead,fun h => absurd h hcand,hmatch,
      fun hs' c hc => hs.settled_steps hs' hsteps (hcommit hs' c hc),?_,fun h => absurd h hcand,
      fun h _ => hcount h⟩
    intro _ d hd
    exact absurd hd (List.not_mem_nil)
  have hrole' : (RaftNode.boot .exact env id N cfg st).protocol.role = q.role := by
    rw [hprot]
    obtain ⟨ds,la,heq,_⟩ := q.applyCommittedEntries_frame
    rw [heq]
  rw [hrole']
  by_cases hres : resumes p0 st.term st.votedFor
  · have hrole : q.role = .leader := if_pos hres
    have hmatch : q.matchIndex = RaftProtocol.ownMatch id q.log := if_pos hres
    obtain ⟨hN,hpos,hself⟩ := hres
    have hself' : a.vote i = some i := by
      have hnames := hrest.vote
      rw [hst.votedFor] at hself
      rw [hself] at hnames
      obtain ⟨w,hw,hwi⟩ := hnames
      rw [hw,R.unique hwi hid]
    rw [hst.term,← hrest.term] at hpos
    obtain ⟨hwon,hbook⟩ := hrest.solo hN hpos hself'
    have hstep : Steps LogEntry.term strict i a (a.resume i) := .single (.resume hwon hbook)
    refine ⟨a.resume i,hstep,key _ hstep rfl rfl rfl (fun _ _ _ => ⟨hwon,hbook⟩)
      (by simp [hrole,State.resume]) (by simp [hrole]) ?_ ?_,fun _ => hN⟩
    · intro _ x k hk
      rw [hmatch] at hk
      obtain ⟨rfl,hlen⟩ := RaftProtocol.ownMatch_lookup hk
      refine ⟨i,hid,?_⟩
      rw [hlen,hlog,hbook]
      exact hs.base.won_ack hwon
    · intro _
      rw [hmatch]
      exact distinct_ownMatch R id q.log
  · have hrole : q.role = .follower := if_neg hres
    have hstep : Steps LogEntry.term strict i a (a.retire i) := .single .retire
    refine ⟨a.retire i,hstep,key _ hstep rfl rfl rfl hrest.solo (by simp [hrole,State.retire])
      (by simp [hrole]) (by simp [hrole]) (by simp [hrole]),by simp [hrole]⟩

/-- What one turn of node `i` leads to, also when it is cut short. -/
structure TurnOk (R : Roster N) (strict : Prop) (a : Abstract N V) (i : Fin N)
    (p : RaftProtocol V) (n' : RaftNode V V) (effects : List (Effect V V)) : Prop where
  node : NodeOk R strict a i n'
  sent : ∀ out ∈ effects.filterMap Effect.sent, BackedOut R strict a i out
  emitted : strict → ∀ d ∈ effects.flatMap Effect.emitted, Decides a i d
  handled : p.role = .leader → N = 1 ∨ a.won p.currentTerm i
  leading : n'.protocol.role = .leader → N = 1 ∨ a.won n'.protocol.currentTerm i

theorem BackedOut.mono (hb : Base LogEntry.term a)
    (hx : ReplicatedLog.Extends LogEntry.term a a') {out : Outgoing (RaftMessage V)}
    (h : BackedOut R strict a i out) : BackedOut R strict a' i out :=
  fun j hj haddr => Backed.mono hb hx (h j hj haddr)

/-- A process that dies after `k` effects of a turn. From an abstract state that
matches its storage, the restart is one more step. -/
theorem NodeOk.dies {n : RaftNode V V} (h : NodeOk R strict a i n)
    (hs : Sound LogEntry.term strict a) (env : Env) {t : Turn V V} (rest : List V) {k : ℕ}
    {term : ℕ} {v : Option NodeId} {l : List (LogEntry V)} (hsteps : Steps LogEntry.term strict i a a')
    (hst : Holds .exact (n.storage.calls (((t.effects .exact).take k).filterMap Effect.stored))
      term v l)
    (hrest : Resting R a' i term v l)
    (hsaved : Saved strict a' i
      (n.storage.calls (((t.effects .exact).take k).filterMap Effect.stored)))
    (hlead : t.handled.role = .leader → N = 1 ∨ a'.won t.handled.currentTerm i)
    (hsent : ∀ out ∈ ((t.effects .exact).take k).filterMap Effect.sent, BackedOut R strict a' i out)
    (hemit : strict → ∀ d ∈ ((t.effects .exact).take k).flatMap Effect.emitted, Decides a' i d)
    (hflush : t.calls.length ≤ k → Tracks R strict a' i t.sending) :
    ∃ a2, Steps LogEntry.term strict i a a2 ∧
      TurnOk R strict a2 i t.handled (n.after .exact env t rest (.dies k))
        ((Fate.dies k).cut (t.effects .exact)) ∧
      ((Fate.dies k).flushes t → ∃ a1, Steps LogEntry.term strict i a a1 ∧
        Steps LogEntry.term strict i a1 a2 ∧ Tracks R strict a1 i t.sending) := by
  have hs' := hs.steps hsteps
  obtain ⟨a2,hsteps2,hnode,hN⟩ :=
    NodeOk.boot hs' env n.protocol.config h.tracks.ident hrest hst hsaved
  have hx := (hs'.base.steps hsteps2).2
  have hafter : n.after .exact env t rest (.dies k) = .boot .exact env n.protocol.nodeId N
      n.protocol.config (n.storage.calls (((t.effects .exact).take k).filterMap
        Effect.stored)) := by
    simp only [RaftNode.after,Fate.cut,h.tracks.total]
  rw [hafter]
  exact ⟨a2,hsteps.trans hsteps2,⟨hnode,fun out ho => (hsent out ho).mono hs'.base hx,
    fun hst d hd => (hemit hst d hd).steps hs' hst hsteps2,
    fun hl => (hlead hl).imp id hx.won,fun hl => Or.inl (hN hl)⟩,
    fun hk => ⟨a',hsteps,hsteps2,hflush hk⟩⟩

theorem NodeOk.turn {n : RaftNode V V} (h : NodeOk R strict a i n)
    (hs : Sound LogEntry.term strict a) (env : Env) {input : Input V} (rest : List V) (fate : Fate)
    (hin : Welcome R strict a i n.protocol input) :
    ∃ a', Steps LogEntry.term strict i a a' ∧
      TurnOk R strict a' i (turn .exact env n.protocol input).handled
        (n.after .exact env (turn .exact env n.protocol input) rest fate)
        (fate.cut ((turn .exact env n.protocol input).effects .exact)) ∧
      (fate.flushes (turn .exact env n.protocol input) → ∃ a1, Steps LogEntry.term strict i a a1 ∧
        Steps LogEntry.term strict i a1 a' ∧
        Tracks R strict a1 i (turn .exact env n.protocol input).sending) := by
  set t := Raft.turn .exact env n.protocol input with ht
  have hsim := h.tracks.handle hs h.solo h.synced.clean env hin
  obtain ⟨a1,hsteps1,htr1,hsolo1,hout1⟩ := hsim.full
  have hs1 := hs.steps hsteps1
  have hwon1 : t.handled.role = .leader → a1.won t.handled.currentTerm i := htr1.won hs1.base
  have hds : strict → ∀ d ∈ t.decisions, Decides a1 i d := htr1.decided
  have hsending : Tracks R strict a1 i t.sending := { htr1 with }
  have hsaved1 : ∀ ci k, (ci = n.storage.commitIndex ∨ ci = t.handled.commitIndex) →
      Saved strict a1 i { n.storage with
        term := t.handled.currentTerm
        votedFor := t.handled.votedFor
        log := Adapter.exact.stripLogEntries t.handled.log
        commitIndex := ci
        decisions := saveAll .exact n.storage.decisions (t.decisions.take k) } := by
    intro ci k hci hst
    refine ⟨fun c hc => ?_,fun slot hslot => ?_⟩
    · rcases hci with rfl | rfl
      · exact hs.settled_steps hst hsteps1 ((h.saved hst).1 c hc)
      · exact htr1.commit hst c hc
    · rcases mem_saveAll.mp hslot with hold | ⟨d,hd,rfl⟩
      · exact hs.settled_steps hst hsteps1 ((h.saved hst).2 slot hold)
      · exact (hds hst d (List.mem_of_mem_take hd)).1
  have hsent : ∀ k, ∀ out ∈ ((t.effects .exact).take k).filterMap Effect.sent,
      BackedOut R strict a1 i out := by
    intro k out ho
    rw [Turn.sent_cut] at ho
    exact hout1 out (List.mem_of_mem_take ho)
  have hemit : ∀ k, strict → ∀ d ∈ ((t.effects .exact).take k).flatMap Effect.emitted,
      Decides a1 i d := by
    intro k hst d hd
    rw [Turn.emitted_cut] at hd
    split at hd
    · exact hds hst d hd
    · exact absurd hd List.not_mem_nil
  cases fate with
  | completes =>
    obtain ⟨t',v,l,ci,hstore,_,hci,hfull⟩ :=
      h.synced.cut env input (t.effects .exact).length
    obtain ⟨rfl,rfl,rfl,_⟩ := hfull (by simp [ht,Turn.effects])
    obtain ⟨lost,hfinal⟩ := turn_final .exact env n.protocol input
    have hsync := h.synced.after env input rest .completes
    rw [List.take_length] at hstore
    have hall := hsent (t.effects .exact).length
    have hallE := hemit (t.effects .exact).length
    rw [List.take_length] at hall hallE
    refine ⟨a1,hsteps1,⟨⟨?_,hsolo1,hsync,?_⟩,hall,hallE,fun hl => Or.inr (hwon1 hl),?_⟩,
      fun _ => ⟨a1,hsteps1,.refl,hsending⟩⟩
    · change Tracks R strict a1 i t.final
      rw [ht,hfinal]
      exact { htr1 with decided := by simp }
    · simp only [RaftNode.after,Fate.cut]
      rw [hstore]
      exact hsaved1 ci _ (hci.imp id And.left)
    · change t.final.role = .leader → N = 1 ∨ a1.won t.final.currentTerm i
      rw [ht,hfinal]
      exact fun hl => Or.inr (hwon1 hl)
  | dies k =>
    obtain ⟨t',v,l,ci,hstore,htorn,hci,hfull⟩ := h.synced.cut env input k
    have hholds : Holds .exact (n.storage.calls (((t.effects .exact).take k).filterMap
        Effect.stored)) t' v l := by
      rw [hstore]
      exact ⟨rfl,rfl,rfl⟩
    by_cases hk : t.calls.length ≤ k
    · obtain ⟨rfl,rfl,rfl,_⟩ := hfull hk
      refine h.dies hs env rest hsteps1 hholds (htr1.resting hsolo1) ?_
        (fun hl => Or.inr (hwon1 hl)) (hsent k) (hemit k) (fun _ => hsending)
      rw [hstore]
      exact hsaved1 ci _ (hci.imp id And.left)
    · rcases hci with rfl | ⟨rfl,rfl,rfl,rfl⟩
      · obtain ⟨a2,hsteps2,hrest,hlead⟩ := hsim.torn htorn
        refine h.dies hs env rest hsteps2 hholds hrest ?_ hlead ?_ ?_ (fun hk' => absurd hk' hk)
        · rw [hstore,show k - (t.calls.length + t.outgoing.length + 1) = 0 by omega]
          exact h.saved.steps hs hsteps2
        · intro out ho
          rw [Turn.sent_cut,show k - t.calls.length = 0 by omega] at ho
          exact absurd ho List.not_mem_nil
        · intro _ d hd
          rw [Turn.emitted_cut,if_neg (by omega)] at hd
          exact absurd hd List.not_mem_nil
      · refine h.dies hs env rest hsteps1 hholds (htr1.resting hsolo1) ?_
          (fun hl => Or.inr (hwon1 hl)) (hsent k) (hemit k) (fun _ => hsending)
        rw [hstore]
        exact hsaved1 _ _ (Or.inr rfl)

structure ClusterOk (R : Roster N) (strict : Prop) (a : Abstract N V) (s : Cluster N V) :
    Prop where
  sound : Sound LogEntry.term strict a
  nodes : ∀ i, NodeOk R strict a i (s.nodes i)
  packets : ∀ pkt ∈ s.sent, pkt.src ≠ pkt.dst ∧ Backed R strict a pkt.src pkt.dst pkt.msg
  flight : ∀ pkt ∈ s.flight, pkt ∈ s.sent
  emitted : strict → ∀ x ∈ s.emitted, Decides a x.1 x.2
  elected : ∀ x ∈ s.elected, N = 1 ∨ a.won x.1 x.2

variable {s s' : Cluster N V}

/-- Nothing has happened yet, whichever identities the members may go by. -/
theorem ClusterOk.fresh (M : Membership N) (hR : ∀ i, R.owns i (M.ids i)) (strict : Prop)
    (env : Env) : ClusterOk (V := V) R strict State.start (.init M env) := by
  refine ⟨.start,fun i => ⟨?_,?_,?_,?_⟩,?_,?_,?_,?_⟩
  · change Tracks R strict State.start i (RaftNode.boot .exact env (M.ids i) N M.config .new).protocol
    rw [boot_new]
    refine ⟨hR i,rfl,rfl,rfl,rfl,?_,?_,?_,?_,?_,nofun,nofun⟩ <;> simp [RaftProtocol.new,State.start]
  · intro _ h
    simp [State.start] at h
  · exact .boot .exact env (M.ids i) N M.config .new
  · intro _
    refine ⟨?_,fun slot hslot => absurd hslot (AList.notMem_empty slot)⟩
    intro c hc
    cases hc
  all_goals simp [Cluster.init]

theorem ClusterOk.init (M : Membership N) (strict : Prop) (env : Env) :
    ClusterOk (V := V) M.roster strict State.start (.init M env) := .fresh M (fun _ => rfl) strict env

theorem mem_leading {x : ℕ × Fin N} (h : x ∈ leading i p) :
    p.role = .leader ∧ x = (p.currentTerm,i) := by
  unfold leading at h
  split at h
  · exact ⟨‹_›,List.mem_singleton.mp h⟩
  · exact absurd h List.not_mem_nil

def Cluster.turned (s : Cluster N V) (i : Fin N) (env : Env) (input : Input V) (rest : List V)
    (fate : Fate) (packets : List (Packet N V)) : Cluster N V :=
  let t := turn .exact env (s.nodes i).protocol input
  let node := (s.nodes i).after .exact env t rest fate
  { nodes := Function.update s.nodes i node
    flight := s.flight ++ packets
    sent := s.sent ++ packets
    emitted := s.emitted ++
      ((fate.cut (t.effects .exact)).flatMap Effect.emitted).map fun d => (i,d)
    elected := s.elected ++ leading i t.handled ++ leading i node.protocol }

def Carried (R : Roster N) (i : Fin N) (effects : List (Effect V V)) (packets : List (Packet N V)) :
    Prop :=
  ∀ pkt ∈ packets, pkt.src = i ∧ pkt.dst ≠ i ∧
    ∃ out ∈ effects.filterMap Effect.sent, R.addressed pkt.dst out.target ∧ pkt.msg = out.message

theorem ClusterOk.turned (h : ClusterOk R strict a s) (env : Env) (input : Input V) (rest : List V)
    (fate : Fate) (hin : Welcome R strict a i (s.nodes i).protocol input)
    {packets : List (Packet N V)} (hp : Carried R i (fate.cut ((turn .exact env
      (s.nodes i).protocol input).effects .exact)) packets) :
    ∃ a', Steps LogEntry.term strict i a a' ∧
      ClusterOk R strict a' (s.turned i env input rest fate packets) ∧
      (fate.flushes (turn .exact env (s.nodes i).protocol input) → ∃ a1,
        Steps LogEntry.term strict i a a1 ∧ Steps LogEntry.term strict i a1 a' ∧
        Tracks R strict a1 i (turn .exact env (s.nodes i).protocol input).sending) := by
  obtain ⟨a',hsteps,hturn,hflush⟩ := (h.nodes i).turn h.sound env rest fate hin
  have hx := (h.sound.base.steps hsteps).2
  refine ⟨a',hsteps,⟨h.sound.steps hsteps,?_,?_,?_,?_,?_⟩,hflush⟩
  · intro j
    by_cases hj : j = i
    · subst hj
      simpa [Cluster.turned] using hturn.node
    · simpa [Cluster.turned,hj] using (h.nodes j).apart h.sound hsteps hj
  · intro pkt hpkt
    rcases List.mem_append.mp hpkt with hpkt | hpkt
    · obtain ⟨hne,hb⟩ := h.packets pkt hpkt
      exact ⟨hne,hb.mono h.sound.base hx⟩
    · obtain ⟨hsrc,hdst,out,hout,haddr,hmsg⟩ := hp pkt hpkt
      rw [hsrc,hmsg]
      exact ⟨hdst.symm,hturn.sent out hout _ hdst haddr⟩
  · intro pkt hpkt
    rcases List.mem_append.mp hpkt with hpkt | hpkt
    · exact List.mem_append_left _ (h.flight pkt hpkt)
    · exact List.mem_append_right _ hpkt
  · intro hst x hx'
    rcases List.mem_append.mp hx' with hx' | hx'
    · exact (h.emitted hst x hx').steps h.sound hst hsteps
    · obtain ⟨d,hd,rfl⟩ := List.mem_map.mp hx'
      exact hturn.emitted hst d hd
  · intro x hx'
    rcases List.mem_append.mp hx' with hx' | hx'
    · rcases List.mem_append.mp hx' with hx' | hx'
      · exact (h.elected x hx').imp id hx.won
      · obtain ⟨hl,rfl⟩ := mem_leading hx'
        exact hturn.handled hl
    · obtain ⟨hl,rfl⟩ := mem_leading hx'
      exact hturn.leading hl

theorem ClusterOk.reboot (h : ClusterOk R strict a s) (env : Env) {id : NodeId}
    (hid : R.owns i id) {cfg : RaftConfig} {node : RaftNode V V}
    (hnode : node = .boot .exact env id N cfg (s.nodes i).storage) :
    ∃ a', Steps LogEntry.term strict i a a' ∧ ClusterOk R strict a' { s with
      nodes := Function.update s.nodes i node
      elected := s.elected ++ leading i node.protocol } := by
  have hi := h.nodes i
  obtain ⟨a',hsteps,hok,hN⟩ := NodeOk.boot h.sound env cfg hid
    (hi.tracks.resting hi.solo) hi.synced.holds hi.saved
  rw [← hnode] at hok hN
  have hx := (h.sound.base.steps hsteps).2
  refine ⟨a',hsteps,h.sound.steps hsteps,?_,?_,h.flight,?_,?_⟩
  · intro j
    by_cases hj : j = i
    · subst hj
      simpa using hok
    · simpa [hj] using (h.nodes j).apart h.sound hsteps hj
  · intro pkt hpkt
    obtain ⟨hne,hb⟩ := h.packets pkt hpkt
    exact ⟨hne,hb.mono h.sound.base hx⟩
  · exact fun hst x hx' => (h.emitted hst x hx').steps h.sound hst hsteps
  · intro x hx'
    rcases List.mem_append.mp hx' with hx' | hx'
    · exact (h.elected x hx').imp_right hx.won
    · obtain ⟨hl,_⟩ := mem_leading hx'
      exact Or.inl (hN hl)

theorem Membership.carried (M : Membership N) (i : Fin N) (effects : List (Effect V V)) :
    Carried M.roster i effects ((effects.filterMap Effect.sent).flatMap (M.route i)) := by
  intro pkt hpkt
  obtain ⟨out,hout,hpkt⟩ := List.mem_flatMap.mp hpkt
  obtain ⟨hsrc,hdst,haddr,hmsg⟩ := Membership.mem_route hpkt
  exact ⟨hsrc,hdst,out,hout,Membership.roster_addressed haddr,hmsg⟩

variable {M : Membership N}

theorem ClusterOk.take (h : ClusterOk M.roster strict a s) (env : Env) (input : Input V)
    (rest : List V) (fate : Fate) (hin : Welcome M.roster strict a i (s.nodes i).protocol input) :
    ∃ a', Steps LogEntry.term strict i a a' ∧
      ClusterOk M.roster strict a' (s.take M i env input rest fate) ∧
      (fate.flushes (turn .exact env (s.nodes i).protocol input) → ∃ a1,
        Steps LogEntry.term strict i a a1 ∧ Steps LogEntry.term strict i a1 a' ∧
        Tracks M.roster strict a1 i (turn .exact env (s.nodes i).protocol input).sending) :=
  h.turned env input rest fate hin (Membership.carried M i _)

/-- The packet a step hands over keeps what its own term has stored. -/
def KeepsOwnOnDeliver (s : Cluster N V) : Label V N → Prop
  | .deliver pos _ _ => ∀ pkt ∈ s.flight[pos]?, KeepsOwn (s.nodes pkt.dst).protocol pkt.msg
  | _ => True

instance (s : Cluster N V) (l : Label V N) : Decidable (KeepsOwnOnDeliver s l) :=
  match l with
  | .deliver pos _ _ => inferInstanceAs (Decidable (∀ pkt ∈ s.flight[pos]?, _))
  | .act .. => isTrue trivial
  | .repropose .. => isTrue trivial
  | .restart .. => isTrue trivial
  | .lose .. => isTrue trivial
  | .duplicate .. => isTrue trivial

structure StepOk (M : Membership N) (strict : Prop) (a : Abstract N V) (s : Cluster N V)
    (l : Label V N) (a' : Abstract N V) (s' : Cluster N V) : Prop where
  moves : Moves LogEntry.term strict a a'
  ok : ClusterOk M.roster strict a' s'
  shows : ∀ {i q}, s.Shows M l s' i q → ∃ a1, Moves LogEntry.term strict a a1 ∧
    Moves LogEntry.term strict a1 a' ∧ Tracks M.roster strict a1 i q

theorem StepOk.quiet {l : Label V N} (hmoves : Moves LogEntry.term strict a a')
    (h : ClusterOk M.roster strict a' s') (hl : s.turnOf M l = none) : StepOk M strict a s l a' s' := by
  refine ⟨hmoves,h,fun hq => ?_⟩
  rcases hq with rfl | ⟨t,fate,ht,_⟩
  · exact ⟨a',hmoves,.refl,(h.nodes _).tracks⟩
  · rw [hl] at ht
    cases ht

/-- A turn of node `i`, from a state that differs from `s` in its packets only. -/
theorem StepOk.take {s0 : Cluster N V} (h : ClusterOk M.roster strict a s0) (hnodes : s0.nodes = s.nodes)
    {l : Label V N} {env : Env} {input : Input V} {rest : List V} {fate : Fate}
    (hl : s.turnOf M l = some (i,turn .exact env (s.nodes i).protocol input,fate))
    (hin : Welcome M.roster strict a i (s.nodes i).protocol input) :
    ∃ a', StepOk M strict a s l a' (s0.take M i env input rest fate) := by
  rw [← hnodes] at hin
  obtain ⟨a',hsteps,hok,hflush⟩ := h.take (i := i) env input rest fate hin
  refine ⟨a',hsteps.moves,hok,fun hq => ?_⟩
  rcases hq with rfl | ⟨t,fate',ht,hf,rfl⟩
  · exact ⟨a',hsteps.moves,.refl,(hok.nodes _).tracks⟩
  · rw [hl] at ht
    cases ht
    rw [← hnodes] at hf ⊢
    obtain ⟨a1,h1,h2,h3⟩ := hflush hf
    exact ⟨a1,h1.moves,h2.moves,h3⟩

theorem Unseen.exact {src : Fin N} {msg : RaftMessage V} :
    Unseen M.roster strict p src (M.ids src) msg := by
  cases msg with
  | requestVoteResponse t granted => exact fun _ _ _ _ _ h => Eq.symm h
  | appendEntriesResponse t success mi ct ci => exact fun _ _ _ _ h => Eq.symm h
  | _ => trivial

/-- What a node is woken with is a message the history backs, or its own business. -/
theorem ClusterOk.wakes (h : ClusterOk M.roster strict a s) {l : Label V N} {env : Env} {input : Input V}
    {rest : List V} {fate : Fate} {flight : List (Packet N V)}
    (hw : s.Wakes M l i env input rest fate flight) (hl : strict → KeepsOwnOnDeliver s l) :
    ClusterOk M.roster strict a { s with flight := flight } ∧
      Welcome M.roster strict a i (s.nodes i).protocol input := by
  cases hw with
  | @act _ _ input => exact ⟨h,fun _ _ hmsg => by cases input <;> cases hmsg⟩
  | repropose => exact ⟨h,fun _ _ hmsg => by cases hmsg⟩
  | @deliver pos _ _ pkt hpkt =>
    obtain ⟨hne,hb⟩ := h.packets pkt (h.flight pkt (List.mem_of_getElem? hpkt))
    refine ⟨{ h with flight := fun x hx => h.flight x (List.mem_of_mem_eraseIdx hx) },?_⟩
    intro sender msg hmsg
    cases hmsg
    exact ⟨pkt.src,hne,rfl,hb,fun hst => hl hst pkt hpkt,.exact⟩

theorem ClusterOk.step (h : ClusterOk M.roster strict a s) {l : Label V N}
    (hl : strict → KeepsOwnOnDeliver s l) (hs : s.step M l = some s') :
    ∃ a', StepOk M strict a s l a' s' := by
  rcases Cluster.step_cases hs with ⟨i,env,input,rest,fate,flight,hw,rfl⟩ | ⟨i,env,rfl,rfl⟩ |
    ⟨pos,rfl,rfl⟩ | ⟨pos,pkt,rfl,hpkt,rfl⟩
  · obtain ⟨hok,hin⟩ := h.wakes hw hl
    exact StepOk.take (s := s) hok rfl hw.turnOf hin
  · have hboot : s.rebooted i env = .boot .exact env (s.nodes i).protocol.nodeId N
        (s.nodes i).protocol.config (s.nodes i).storage := by
      rw [Cluster.rebooted,(h.nodes i).tracks.total]
    obtain ⟨a',hsteps,hok⟩ := h.reboot env (h.nodes i).tracks.ident hboot
    exact ⟨a',.quiet hsteps.moves hok rfl⟩
  · exact ⟨a,.quiet .refl { h with
      flight := fun x hx => h.flight x (List.mem_of_mem_eraseIdx hx) } rfl⟩
  · refine ⟨a,.quiet .refl { h with flight := fun x hx => ?_ } rfl⟩
    rcases List.mem_append.mp hx with hx | hx
    · exact h.flight x hx
    · rw [List.mem_singleton.mp hx]
      exact h.flight pkt (List.mem_of_getElem? hpkt)

theorem ClusterOk.reaches (h : ClusterOk M.roster strict a s) {ok : Cluster N V → Label V N → Prop}
    (hok : strict → ∀ s l, ok s l → KeepsOwnOnDeliver s l)
    (hr : Runs.Reaches (Cluster.step M) ok s s') :
    ∃ a', Moves LogEntry.term strict a a' ∧ ClusterOk M.roster strict a' s' := by
  induction hr with
  | start => exact ⟨a,.refl,h⟩
  | next _ hl hstep ih =>
    obtain ⟨a1,hmoves,h1⟩ := ih
    obtain ⟨a2,h2⟩ := h1.step (fun hst => hok hst _ _ hl) hstep
    exact ⟨a2,hmoves.trans h2.moves,h2.ok⟩

end
end Raft
end Daccord
