import Daccord.PaxosAgreement

/-! An acceptor does not go back: in an open slot its promise and the number of
its vote only rise. This fails where a node uses a slot for a proposal of its
own, or for a replay, after it has promised a higher number there. -/
namespace Daccord
namespace Paxos

variable {V : Type} {N : ℕ}

def PaxosInstance.Level (inst : PaxosInstance V) : Prop :=
  ∀ a ∈ inst.accepted, ∃ h ∈ inst.highestPromised, a.1 ≤ h

structure PaxosInstance.Rises (inst inst' : PaxosInstance V) : Prop where
  promised : ∀ h ∈ inst.highestPromised, ∃ h' ∈ inst'.highestPromised, h ≤ h'
  accepted : ∀ a ∈ inst.accepted, ∃ a' ∈ inst'.accepted, a.1 ≤ a'.1
  level : inst'.Level

/-- The vote is not above the promise in any slot that is still open. -/
def PaxosProtocol.Level (p : PaxosProtocol V) : Prop :=
  ∀ slot, slot ∉ p.decidedSlots → (p.instanceAt slot).Level

def PaxosProtocol.Rises (p q : PaxosProtocol V) : Prop :=
  ∀ slot, slot ∉ q.decidedSlots → (p.instanceAt slot).Rises (q.instanceAt slot)

section
variable {p q r : PaxosProtocol V} {slot : ℕ} {inst inst' : PaxosInstance V} {pn : ProposalNumber}

theorem PaxosInstance.Level.same (h : inst.Level)
    (hp : inst'.highestPromised = inst.highestPromised) (ha : inst'.accepted = inst.accepted) :
    inst.Rises inst' := by
  refine ⟨fun hp' hh => ⟨hp',hp ▸ hh,le_rfl⟩,fun a hacc => ⟨a,ha ▸ hacc,le_rfl⟩,?_⟩
  unfold PaxosInstance.Level
  rw [hp,ha]
  exact h

theorem PaxosInstance.Level.moved (h : inst.Level) (hle : ∀ hp ∈ inst.highestPromised, hp ≤ pn)
    (hp : inst'.highestPromised = some pn)
    (ha : inst'.accepted = inst.accepted ∨ ∃ v, inst'.accepted = some (pn,v)) :
    inst.Rises inst' := by
  have hbelow : ∀ a ∈ inst.accepted, a.1 ≤ pn := fun a hacc => by
    obtain ⟨hp,hhp,hahp⟩ := h a hacc
    exact hahp.trans (hle hp hhp)
  refine ⟨fun hp' hh => ⟨pn,hp,hle hp' hh⟩,fun a hacc => ?_,fun a hacc => ⟨pn,hp,?_⟩⟩
  · rcases ha with ha | ⟨v,ha⟩
    · exact ⟨a,ha ▸ hacc,le_rfl⟩
    · exact ⟨(pn,v),ha,hbelow a hacc⟩
  · rcases ha with ha | ⟨v,ha⟩
    · exact hbelow a (ha ▸ hacc)
    · cases ha.symm.trans hacc
      exact le_rfl

theorem PaxosInstance.Rises.trans {inst'' : PaxosInstance V} (h : inst.Rises inst')
    (h' : inst'.Rises inst'') : inst.Rises inst'' := by
  refine ⟨fun hp hh => ?_,fun a ha => ?_,h'.level⟩
  · obtain ⟨hp',hh',hle⟩ := h.promised hp hh
    obtain ⟨hp'',hh'',hle'⟩ := h'.promised hp' hh'
    exact ⟨hp'',hh'',hle.trans hle'⟩
  · obtain ⟨a',ha',hle⟩ := h.accepted a ha
    obtain ⟨a'',ha'',hle'⟩ := h'.accepted a' ha'
    exact ⟨a'',ha'',hle.trans hle'⟩

theorem PaxosProtocol.Rises.trans (h : p.Rises q) (hk : Keeps q r) (h' : q.Rises r) : p.Rises r :=
  fun slot hs => (h slot fun hd => hs (hk.mem_decided hd)).trans (h' slot hs)

theorem PaxosProtocol.Rises.level (h : p.Rises q) : q.Level := fun slot hs => (h slot hs).level

/-- Only one slot is touched, and there the acceptor goes on. -/
theorem PaxosProtocol.Level.touched (h : p.Level)
    (hd : ∀ {s}, s ∈ p.decidedSlots → s ∈ q.decidedSlots)
    (helse : ∀ s, s ≠ slot → q.instanceAt s = p.instanceAt s)
    (hs : slot ∉ q.decidedSlots → (p.instanceAt slot).Rises (q.instanceAt slot)) : p.Rises q := by
  intro s hopen
  by_cases hne : s = slot
  · subst hne
    exact hs hopen
  · rw [helse s hne]
    exact (h s fun hs' => hopen (hd hs')).same rfl rfl

theorem PaxosProtocol.Level.quiet (h : p.Level)
    (hd : ∀ {s}, s ∈ p.decidedSlots → s ∈ q.decidedSlots) (hi : q.instances = p.instances) :
    p.Rises q := by
  intro s hopen
  rw [PaxosProtocol.instanceAt,PaxosProtocol.instanceAt,hi]
  exact (h s fun hs => hopen (hd hs)).same rfl rfl

theorem PaxosProtocol.Level.putInstance (h : p.Level) (hi : (p.instanceAt slot).Rises inst) :
    p.Rises (p.putInstance slot inst) := by
  refine h.touched id (fun s hne => PaxosProtocol.instanceAt_putInstance_ne p hne _) fun _ => ?_
  rw [PaxosProtocol.instanceAt_putInstance_self]
  exact hi

theorem PaxosProtocol.Level.putFound (h : p.Level) (ht : Tidy p)
    (hl : p.instances.lookup slot = some inst) (hi : inst.Level → inst.Rises inst') :
    p.Rises (p.putInstance slot inst') := by
  have hlevel := h slot (ht.not_decided hl)
  rw [PaxosProtocol.instanceAt_of_lookup hl] at hlevel
  refine h.putInstance ?_
  rw [PaxosProtocol.instanceAt_of_lookup hl]
  exact hi hlevel

/-- A node that needs nobody else, and has heard of nobody: what it votes for is
decided, and it has promised nothing in the slots it has not taken. -/
structure Lone (p : PaxosProtocol V) : Prop where
  quorum : p.quorumSize ≤ 1
  ahead : ∀ slot, p.nextSlot ≤ slot → (p.instanceAt slot).highestPromised = none
  unvoted : ∀ slot, slot ∉ p.decidedSlots → (p.instanceAt slot).accepted = none
  election : ∀ e ∈ p.election, e.accepted = []
  elections : ∀ r ∈ p.record.elections, r.replayed = []

theorem Lone.nothing_reported (h : Lone p) (env : PaxosEnv) (since : ℕ) :
    p.collectAcceptedForPromise env since = [] := by
  refine List.filterMap_eq_nil_iff.mpr fun slot _ => ?_
  split
  · rfl
  · split
    · rfl
    · rename_i hs
      rw [h.unvoted slot hs]
      rfl

variable [DecidableEq V] {env : PaxosEnv}

theorem PaxosProtocol.Level.conclude (h : p.Level) {value : V}
    (hd : ∀ {s}, s ∈ p.decidedSlots → s ∈ (p.conclude env slot value).1.decidedSlots) :
    p.Rises (p.conclude env slot value).1 :=
  h.touched hd (fun _ hne => (p.conclude_elsewhere env slot value hne).1)
    fun hs => absurd (mem_of_lookup (PaxosProtocol.lookup_conclude ..)) hs

/-- A proposer votes for itself where it has promised nothing higher. -/
theorem PaxosProtocol.Level.selfAccept (h : p.Level) {value : V} (hs : slot ∉ p.decidedSlots)
    (hd : ∀ {s}, s ∈ p.decidedSlots → s ∈ (p.selfAccept env slot inst pn value).1.decidedSlots)
    (hle : ∀ hp ∈ (p.instanceAt slot).highestPromised, hp ≤ pn) :
    p.Rises (p.selfAccept env slot inst pn value).1 := by
  refine h.touched hd (fun _ hne => (p.selfAccept_elsewhere env slot inst pn value hne).1) ?_
  intro hopen
  rcases (p.selfAccept_cases env slot inst pn value).2 with ⟨hd,_⟩ | ⟨heq,_⟩
  · exact absurd hd hopen
  · rw [heq]
    exact (h slot hs).moved hle rfl (Or.inr ⟨value,rfl⟩)

theorem Lone.selfAccept (h : Lone p) {value : V}
    (hk : Keeps p (p.selfAccept env slot inst pn value).1) :
    Lone (p.selfAccept env slot inst pn value).1 := by
  have hnext := p.nextSlot_le_selfAccept env slot inst pn value
  have helse : ∀ s, s ≠ slot → _ := fun s hne =>
    p.selfAccept_elsewhere env slot inst pn value hne
  have hdecided : slot ∈ (p.selfAccept env slot inst pn value).1.decidedSlots := by
    rw [PaxosProtocol.selfAccept_alone h.quorum]
    exact mem_of_lookup (PaxosProtocol.lookup_conclude ..)
  refine ⟨hk.quorumSize.trans_le h.quorum,fun s hs => ?_,fun s hs => ?_,?_,?_⟩
  · have hlt := hk.tidy.decided_lt hdecided
    rw [(helse s (by omega)).1]
    exact h.ahead s (hnext.trans hs)
  · have hne : s ≠ slot := fun heq => hs (heq ▸ hdecided)
    rw [(helse s hne).1]
    exact h.unvoted s fun hd => hs (hk.mem_decided hd)
  · rw [PaxosProtocol.selfAccept_alone h.quorum]
    obtain ⟨_,_,heq⟩ := PaxosProtocol.conclude_frame env ((p.putInstance slot
      (inst.selfVote p.nodeId pn value)).noteVote slot pn value) slot value
    rw [heq]
    exact h.election
  · rw [(helse (slot + 1) (by omega)).2]
    exact h.elections

variable {R : Rules V} {input : Input V} {out : List (Outgoing (PaxosMessage V))}

theorem Move.rises (ht : Tidy p) (h : p.Level) (hfree : R.free ∨ Lone p)
    (hm : Move R env input p q out) : p.Rises q := by
  have hd : ∀ {s}, s ∈ p.decidedSlots → s ∈ q.decidedSlots := (hm.keeps ht).mem_decided
  have hnext : ∀ {n : ProposalNumber}, (R.free → (p.instanceAt p.nextSlot).Free n) →
      ∀ hp ∈ (p.instanceAt p.nextSlot).highestPromised, hp ≤ n := by
    intro n hc hp hh
    rcases hfree with hr | hl
    · exact (hc hr hp hh).le
    · rw [hl.ahead _ le_rfl] at hh
      cases hh
  cases hm with
  | aside hq => exact h.quiet hd hq.instances
  | tend hs hi => exact h.putInstance ((h _ hs).same hi.highestPromised hi.accepted)
  | promise _ hs hlt =>
    exact h.putInstance ((h _ hs).moved (fun hp hh => (hlt hp hh).le) rfl (Or.inl rfl))
  | @accept _ slot pn value _ hs hfloor =>
    refine h.touched hd (fun s hne => PaxosProtocol.instanceAt_putInstance_ne p hne _) fun _ => ?_
    rw [PaxosProtocol.instanceAt_noteVote,PaxosProtocol.instanceAt_putInstance_self]
    refine (h _ hs).moved (fun hp hh => ?_) rfl (Or.inr ⟨value,rfl⟩)
    obtain ⟨f,hf,hle⟩ := PaxosProtocol.effectiveFloor_slot hh
    exact hle.trans (hfloor f hf)
  | count _ hl => exact h.putFound ht hl fun hi => hi.same rfl rfl
  | phase2 hl hv hq hp =>
    refine h.selfAccept (ht.not_decided hl) hd ?_
    rw [PaxosProtocol.instanceAt_of_lookup hl]
    exact hp
  | offer => exact h.quiet hd rfl
  | belated => exact h.conclude hd
  | tally _ hl => exact h.putFound ht hl fun hi => hi.same rfl rfl
  | settle => exact h.conclude hd
  | learn => exact PaxosProtocol.Level.conclude (p := p.lose _) h hd
  | missing => exact h.quiet hd rfl
  | forward => exact h.quiet hd rfl
  | claim _ hc =>
    refine PaxosProtocol.Level.putInstance (p := { p with nextSlot := p.nextSlot + 1 }) h ?_
    exact (h _ ht.next_not_decided).moved (hnext hc) rfl (Or.inl rfl)
  | lead _ _ _ hc =>
    exact PaxosProtocol.Level.selfAccept (p := { p with nextSlot := p.nextSlot + 1 }) h
      ht.next_not_decided hd (hnext hc)
  | retry hl =>
    refine h.putFound ht hl fun hi => hi.moved (fun hp hh => ?_) rfl (Or.inl rfl)
    exact (p.promised_lt_retryNumber hh).le
  | campaign => exact h.quiet hd rfl
  | submit _ _ hfree =>
    obtain ⟨_,_,_,heq⟩ := PaxosProtocol.submit_frame ht env _ hfree
    exact h.quiet hd (by rw [heq])
  | poll => exact h.quiet hd rfl
  | elect => exact h.quiet hd rfl
  | replay hr hv hl ho hs hlt hc =>
    unfold PaxosProtocol.replayAccept at hd ⊢
    rw [if_neg hs] at hd ⊢
    refine h.selfAccept hs hd fun hp hh => ?_
    rcases hfree with hf | hl
    · exact (hc hf hp hh).le
    · rw [hl.elections _ (List.mem_of_mem_drop hr)] at hv
      cases hv

omit [DecidableEq V] in
theorem Lone.putInstance (h : Lone p) (hp : p.nextSlot ≤ slot → inst.highestPromised = none)
    (ha : inst.accepted = (p.instanceAt slot).accepted) : Lone (p.putInstance slot inst) := by
  refine { h with ahead := fun s hs => ?_, unvoted := fun s hs => ?_ }
  · by_cases hne : s = slot
    · subst hne
      rw [PaxosProtocol.instanceAt_putInstance_self]
      exact hp hs
    · rw [PaxosProtocol.instanceAt_putInstance_ne p hne]
      exact h.ahead s hs
  · by_cases hne : s = slot
    · subst hne
      rw [PaxosProtocol.instanceAt_putInstance_self,ha]
      exact h.unvoted s hs
    · rw [PaxosProtocol.instanceAt_putInstance_ne p hne]
      exact h.unvoted s hs

omit [DecidableEq V] in
theorem Lone.allocate (h : Lone p) : Lone { p with nextSlot := p.nextSlot + 1 } :=
  { h with ahead := fun s hs => h.ahead s (Nat.le_of_succ_le hs) }

theorem Move.lone (ht : Tidy p) (h : Lone p) (hin : ∀ sender msg, input ≠ .message sender msg)
    (hm : Move R env input p q out) : Lone q := by
  have hk := hm.keeps ht
  cases hm with
  | aside hq =>
    have hat : ∀ s, q.instanceAt s = p.instanceAt s := fun s => by
      rw [PaxosProtocol.instanceAt,hq.instances]
      rfl
    refine ⟨hq.quorumSize.trans_le h.quorum,fun s hs => ?_,fun s hs => ?_,fun e he => ?_,?_⟩
    · rw [hat]
      exact h.ahead s (hq.nextSlot ▸ hs)
    · rw [hat]
      exact h.unvoted s (hq.decidedSlots ▸ hs)
    · rcases hq.election with heq | heq
      · exact h.election e (heq ▸ he)
      · rw [heq] at he
        cases he
    · rw [hq.elections]
      exact h.elections
  | tend _ hi =>
    refine h.putInstance (fun hs => ?_) hi.accepted
    rw [hi.highestPromised]
    exact h.ahead _ hs
  | phase2 => exact h.selfAccept hk
  | offer => exact h
  | missing => exact { h with }
  | forward => exact { h with }
  | claim =>
    refine h.allocate.putInstance (fun hs => ?_) rfl
    exact absurd hs (Nat.not_succ_le_self _)
  | lead =>
    refine h.allocate.selfAccept ?_
    exact .selfAccept ht.allocate env ht.next_not_decided (fun _ => Nat.lt_succ_self _) _ _
  | retry hl hp =>
    refine h.putInstance (fun hs => ?_) ?_
    · exact absurd (ht.proposer_of_lookup hl hp) (Nat.not_lt_of_le hs)
    · rw [PaxosProtocol.instanceAt_of_lookup hl]
      rfl
  | campaign =>
    refine { h with election := fun e he => ?_ }
    cases he
    exact h.nothing_reported env _
  | elect he =>
    have hnone := h.election _ he
    refine ⟨h.quorum,fun s hs => ?_,h.unvoted,fun e he => ?_,fun r hr => ?_⟩
    · exact h.ahead s ((p.nextSlot_le_takeOffice env _).trans hs)
    · cases he
    · rcases List.mem_append.mp hr with hr | hr
      · exact h.elections r hr
      · rw [List.mem_singleton.mp hr,hnone]
        rfl
  | replay hr hv =>
    rw [h.elections _ (List.mem_of_mem_drop hr)] at hv
    cases hv
  | promise he | accept he | count he | belated he | tally he | settle he | learn he | submit he | poll he =>
    exact absurd he (hin _ _)

/-- A call of a node that does not pledge itself twice, or that is alone. -/
theorem Moves.rises (ht : Tidy p) (h : p.Level) (hfree : R.free)
    (hm : Moves R env input p q out) : p.Rises q := by
  induction hm with
  | nil => exact h.quiet id rfl
  | snoc hm hlast ih =>
    have ht' := hm.tidy ht
    exact ih.trans (hlast.keeps ht') (hlast.rises ht' ih.level (Or.inl hfree))

theorem Moves.rises_lone (ht : Tidy p) (h : p.Level) (hl : Lone p)
    (hin : ∀ sender msg, input ≠ .message sender msg) (hm : Moves R env input p q out) :
    p.Rises q ∧ Lone q := by
  induction hm with
  | nil => exact ⟨h.quiet id rfl,hl⟩
  | snoc hm hlast ih =>
    have ht' := hm.tidy ht
    exact ⟨ih.1.trans (hlast.keeps ht') (hlast.rises ht' ih.1.level (Or.inr ih.2)),
      hlast.lone ht' ih.2 hin⟩

variable {M : Membership N} {s s' : Cluster N V} {l : Label V N} {i : Fin N}

def UnpledgedStep (s : Cluster N V) (l : Label V N) : Prop :=
  CrashFree s l ∧ ∀ t ∈ s.turn l, Unpledged t.2.1 (s.nodes t.1).protocol t.2.2

def Cluster.Steady (s : Cluster N V) : Prop :=
  ∀ i, (s.nodes i).protocol.Level ∧ (N < 2 → Lone (s.nodes i).protocol)

theorem Cluster.Steady.take (h : s.Steady)
    (hr : Runs.Reaches (Cluster.step M) UnpledgedStep (Cluster.init M env) s) {now : PaxosEnv}
    (ht : s.turn l = some (i,now,input)) (hok : Unpledged now (s.nodes i).protocol input) :
    (s.nodes i).protocol.Rises ((s.nodes i).protocol.handle now input).1 ∧
      (N < 2 → Lone ((s.nodes i).protocol.handle now input).1) := by
  have hk := Cluster.reaches_keeps (fun _ _ hl => hl.1) (Cluster.init_tidy M env) hr i
  obtain ⟨hlevel,hlone⟩ := h i
  rcases Nat.lt_or_ge N 2 with hN | hN
  · have hin : ∀ sender msg, input ≠ .message sender msg := by
      rintro sender msg rfl
      obtain ⟨src,hsrc⟩ := Cluster.turn_message ht
      rw [(alone_of_reaches hN (fun _ _ hl => hl.1) hr).sent] at hsrc
      cases hsrc
    exact ((handle_lax now input hk.tidy).rises_lone hk.tidy hlevel (hlone hN) hin).imp_right
      fun hl _ => hl
  · have hq : 2 ≤ (s.nodes i).protocol.quorumSize := by
      rw [hk.quorumSize]
      exact (show 2 ≤ N / 2 + 1 by omega)
    have hmoves := handle_moves ⟨False,False,False,True,False,fun _ _ => True,0⟩ now input hk.tidy
      ⟨False.elim,False.elim,False.elim,fun _ => hok,False.elim,fun _ => hq,fun _ _ _ => trivial,Nat.zero_le _⟩
    exact ⟨hmoves.rises hk.tidy hlevel trivial,fun hN' => absurd hN hN'.not_ge⟩

theorem Cluster.Steady.step (h : s.Steady)
    (hr : Runs.Reaches (Cluster.step M) UnpledgedStep (Cluster.init M env) s)
    (hok : UnpledgedStep s l) (hs : Cluster.step M s l = some s') :
    (∀ i, (s.nodes i).protocol.Rises (s'.nodes i).protocol) ∧ s'.Steady := by
  have hstill : ∀ i, (s.nodes i).protocol.Rises (s.nodes i).protocol :=
    fun i => (h i).1.quiet id rfl
  have hboth : ∀ i, (s.nodes i).protocol.Rises (s'.nodes i).protocol ∧
      (N < 2 → Lone (s'.nodes i).protocol) := by
    rcases Cluster.step_cases hs with ⟨j,now,input,ht,rfl⟩ | ⟨j,_,rfl⟩ | ⟨j,now,incarnation,rfl,_⟩
    · refine (Function.forall_update_iff s.nodes
        fun i n => (s.nodes i).protocol.Rises n.protocol ∧ (N < 2 → Lone n.protocol)).mpr ⟨?_,?_⟩
      · exact h.take hr ht (hok.2 _ ht)
      · exact fun i _ => ⟨hstill i,(h i).2⟩
    · refine (Function.forall_update_iff s.nodes
        fun i n => (s.nodes i).protocol.Rises n.protocol ∧ (N < 2 → Lone n.protocol)).mpr ⟨?_,?_⟩
      · exact ⟨hstill j,fun hN => { (h j).2 hN with }⟩
      · exact fun i _ => ⟨hstill i,(h i).2⟩
    · exact hok.1.elim
  exact ⟨fun i => (hboth i).1,fun i => ⟨(hboth i).1.level,(hboth i).2⟩⟩

omit [DecidableEq V] in
theorem Cluster.Steady.init (M : Membership N) (env : PaxosEnv) :
    (Cluster.init M env : Cluster N V).Steady :=
  fun _ => ⟨nofun,fun hN => ⟨show N / 2 + 1 ≤ 1 by omega,fun _ _ => rfl,fun _ _ => rfl,nofun,nofun⟩⟩

/-- In runs without restarts in which no node uses a slot for a proposal or a
replay after it has promised as much or more there: in every open slot the
accepted pair is not above the promise, and a step takes neither of them back. -/
theorem acceptor_never_back
    (h : Runs.Reaches (Cluster.step M) UnpledgedStep (Cluster.init M env) s) :
    (∀ slot, slot ∉ (s.nodes i).protocol.decidedSlots →
      ((s.nodes i).protocol.instanceAt slot).Level) ∧
    ∀ l s', UnpledgedStep s l → Cluster.step M s l = some s' → ∀ slot,
      slot ∉ (s'.nodes i).protocol.decidedSlots →
        ((s.nodes i).protocol.instanceAt slot).Rises ((s'.nodes i).protocol.instanceAt slot) := by
  have hsteady : s.Steady := h.invariant Cluster.Steady (.init M env)
    fun _ _ _ hr ih hok hs => (ih.step hr hok hs).2
  exact ⟨(hsteady i).1,fun l s' hok hs => (hsteady.step h hok hs).1 i⟩

instance (s : Cluster N V) (l : Label V N) : Decidable (UnpledgedStep s l) :=
  inferInstanceAs (Decidable
    (CrashFree s l ∧ ∀ t ∈ s.turn l, Unpledged t.2.1 (s.nodes t.1).protocol t.2.2))

end

/-- Node 0 has promised `(1,c)` in slot 0; node 2 has asked it for its vote. -/
def solicited : Cluster 3 ℕ :=
  Runs.after (Cluster.step (trio false)) UnpledgedStep (Cluster.init (trio false) (.steady 0))
    [.act 2 (.steady 1) (some 5),.deliver 0 (.steady 2),.deliver 2 (.steady 3)] (by decide +kernel)

theorem acceptor_never_back_solicited :
    ((solicited.nodes 0).protocol.instanceAt 0).highestPromised = some (.mk 1 ⟨"c",1⟩) ∧
      (Cluster.step (trio false) solicited (.deliver 3 (.steady 4))).isSome = true ∧
      ∀ s', Cluster.step (trio false) solicited (.deliver 3 (.steady 4)) = some s' →
        0 ∉ (s'.nodes 0).protocol.decidedSlots →
          ((solicited.nodes 0).protocol.instanceAt 0).Rises ((s'.nodes 0).protocol.instanceAt 0) :=
  ⟨by decide +kernel,by decide +kernel,fun s' hs => (acceptor_never_back (M := trio false)
    (Runs.after_reaches .start (by decide +kernel))).2 _ s' (by decide +kernel) hs 0⟩

def sworn : Cluster 3 ℕ :=
  Runs.after (Cluster.step (trio false)) CrashFree solicited [.deliver 3 (.steady 4)]
    (by decide +kernel)

/-- Node 0 has voted, and takes the slot for a proposal of its own. -/
def lapsed : Cluster 3 ℕ :=
  Runs.after (Cluster.step (trio false)) CrashFree sworn [.act 0 (.steady 5) (some 2)]
    (by decide +kernel)

def recanted : Cluster 3 ℕ :=
  Runs.after (Cluster.step (trio false)) CrashFree lapsed
    [.deliver 6 (.steady 6),.deliver 8 (.steady 7)] (by decide +kernel)

/-- The promise of node 0 goes back below its vote, and then the vote goes back,
in a slot that it has not decided. -/
theorem acceptor_goes_back :
    Runs.Reaches (Cluster.step (trio false)) CrashFree (Cluster.init (trio false) (.steady 0))
        sworn ∧
      Runs.Reaches (Cluster.step (trio false)) CrashFree sworn lapsed ∧
      Runs.Reaches (Cluster.step (trio false)) CrashFree lapsed recanted ∧
      0 ∉ (recanted.nodes 0).protocol.decidedSlots ∧
      ProposalNumber.mk 1 ⟨"a",1⟩ < .mk 1 ⟨"c",1⟩ ∧
      ((sworn.nodes 0).protocol.instanceAt 0).highestPromised = some (.mk 1 ⟨"c",1⟩) ∧
      ((lapsed.nodes 0).protocol.instanceAt 0).highestPromised = some (.mk 1 ⟨"a",1⟩) ∧
      ((lapsed.nodes 0).protocol.instanceAt 0).accepted = some (.mk 1 ⟨"c",1⟩,5) ∧
      ((recanted.nodes 0).protocol.instanceAt 0).accepted = some (.mk 1 ⟨"a",1⟩,2) := by
  have hsolicited : Runs.Reaches (Cluster.step (trio false)) CrashFree
      (Cluster.init (trio false) (.steady 0)) solicited :=
    (Runs.after_reaches .start (by decide +kernel)).weaken fun _ _ hl => hl.1
  refine ⟨Runs.after_reaches hsolicited (by decide +kernel),?_,?_,by decide +kernel,by decide,
    by decide +kernel,by decide +kernel,by decide +kernel,by decide +kernel⟩
  · exact Runs.after_reaches .start (by decide +kernel)
  · exact Runs.after_reaches .start (by decide +kernel)

end Paxos
end Daccord
