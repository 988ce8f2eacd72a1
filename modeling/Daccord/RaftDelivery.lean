import Daccord.RaftDecisions

/-! What `process_decisions` does once `drain_decisions` has returned: it answers
waiting calls and puts each decision on the channel. All decisions of the batch
are on disk before the first of them is delivered, and a restart goes on behind
the last one on disk. -/
namespace Daccord
namespace Raft

variable {V W : Type}

/-- One thing `process_decisions` does with a decision. -/
inductive Handover (V : Type)
  | answer (d : Decision V)
  | deliver (d : Decision V)

def Handover.answered : Handover V → Option (Decision V)
  | .answer d => some d
  | .deliver _ => none

def Handover.delivered : Handover V → Option (Decision V)
  | .deliver d => some d
  | .answer _ => none

def handovers (ds : List (Decision V)) : List (Handover V) :=
  ds.flatMap fun d => [.answer d,.deliver d]

/-- Which handovers of a turn take place: a process that dies after `k` effects
gets to them when all others are done. -/
def Fate.handed (A : Adapter V W) (t : Turn V W) : Fate → List (Handover V)
  | .completes => handovers t.decisions
  | .dies k => (handovers t.decisions).take (k - (t.effects A).length)

/-- A process and everything that was put on its decision channel, in all lives.
The channel always has room. -/
structure Delivery (V W : Type) where
  node : RaftNode V W
  channel : List (Decision W)

def Delivery.start (A : Adapter V W) (env : Env) (id : NodeId) (total : ℕ) (cfg : RaftConfig) :
    Delivery V W :=
  ⟨.boot A env id total cfg .new,[]⟩

def published (A : Adapter V W) (d : Decision V) : Decision W := ⟨d.slot,A.strip d.value⟩

def Delivery.step (A : Adapter V W) (s : Delivery V W) (w : Wake V) : Option (Delivery V W) :=
  (s.node.accepts w.input).map fun r =>
    let t := turn A w.env s.node.protocol r.1
    { node := s.node.after A w.env t r.2 w.fate
      channel := s.channel ++ ((w.fate.handed A t).filterMap Handover.delivered).map
        (published A) }

/-- The turn ends before the first decision of its batch is saved, or after the
last one is delivered. -/
def Fate.Whole (A : Adapter V W) (t : Turn V W) : Fate → Prop
  | .completes => True
  | .dies k => k ≤ t.calls.length + t.outgoing.length + 1 ∨
      (t.effects A).length + (handovers t.decisions).length ≤ k

def WholeBatches (A : Adapter V W) (s : Delivery V W) (w : Wake V) : Prop :=
  ∀ r ∈ s.node.accepts w.input, w.fate.Whole A (turn A w.env s.node.protocol r.1)

theorem delivered_handovers (ds : List (Decision V)) :
    (handovers ds).filterMap Handover.delivered = ds := by
  induction ds with
  | nil => rfl
  | cons d ds ih =>
    change d :: (handovers ds).filterMap Handover.delivered = d :: ds
    rw [ih]

/-- What is on disk was delivered, and nothing else is applied between turns. -/
structure Delivery.Ok (A : Adapter V W) (s : Delivery V W) : Prop where
  synced : Synced A s.node
  gapless : ∃ k, Gapless s.node k
  delivered : ∀ slot ∈ s.node.storage.decisions, ∃ d ∈ s.channel, d.slot = slot

variable {A : Adapter V W} {s s' : Delivery V W} {w : Wake V}

theorem Delivery.Ok.start (A : Adapter V W) (env : Env) (id : NodeId) (total : ℕ)
    (cfg : RaftConfig) : Delivery.Ok A (.start A env id total cfg) := by
  have hempty : StoredBelow (W := W) ∅ 0 := fun slot => by simp
  refine ⟨.boot A env id total cfg .new,⟨0,.boot A env id total cfg hempty⟩,fun slot hslot => ?_⟩
  exact absurd hslot (AList.notMem_empty slot)

/-- The decisions a turn leaves on disk. -/
theorem Synced.stored {n : RaftNode V W} (h : Synced A n) (env : Env) (input : Input V)
    (rest : List V) (fate : Fate) {slot : ℕ}
    (hslot : slot ∈ (n.after A env (turn A env n.protocol input) rest fate).storage.decisions) :
    slot ∈ n.storage.decisions ∨ ∃ d ∈ (turn A env n.protocol input).decisions, d.slot = slot ∧
      ∀ k, fate = .dies k → (turn A env n.protocol input).calls.length +
        (turn A env n.protocol input).outgoing.length + 1 < k := by
  set t := turn A env n.protocol input
  have hcut : ∀ k, slot ∈ (n.storage.calls (((t.effects A).take k).filterMap
      Effect.stored)).decisions → slot ∈ n.storage.decisions ∨
        ∃ d ∈ t.decisions, d.slot = slot ∧ t.calls.length + t.outgoing.length + 1 < k := by
    intro k hk
    obtain ⟨_,_,_,_,hstore,_⟩ := h.cut env input k
    rw [hstore] at hk
    rcases mem_saveAll.mp hk with hk | ⟨d,hd,rfl⟩
    · exact Or.inl hk
    · refine Or.inr ⟨d,List.mem_of_mem_take hd,rfl,?_⟩
      change d ∈ t.decisions.take (k - (t.calls.length + t.outgoing.length + 1)) at hd
      by_contra hle
      rw [Nat.sub_eq_zero_of_le (by omega),List.take_zero] at hd
      cases hd
  cases fate with
  | completes =>
    have hall : slot ∈ (n.storage.calls ((t.effects A).filterMap Effect.stored)).decisions := hslot
    rw [← List.take_length (l := t.effects A)] at hall
    exact (hcut _ hall).imp_right fun ⟨d,hd,heq,_⟩ => ⟨d,hd,heq,nofun⟩
  | dies k =>
    refine (hcut k hslot).imp_right fun ⟨d,hd,heq,hlt⟩ => ⟨d,hd,heq,fun k' hk' => ?_⟩
    cases hk'
    exact hlt

theorem Delivery.Ok.step (h : s.Ok A) (hw : WholeBatches A s w) (hs : s.step A w = some s') :
    s'.Ok A := by
  obtain ⟨r,hr,rfl⟩ := Option.map_eq_some_iff.mp hs
  obtain ⟨k,hk⟩ := h.gapless
  obtain ⟨k',hk',_⟩ := hk.after h.synced w.env r.1 r.2 w.fate
  have hwhole := hw r hr
  refine ⟨h.synced.after w.env r.1 r.2 w.fate,⟨k',hk'⟩,fun slot hslot => ?_⟩
  rcases h.synced.stored w.env r.1 r.2 w.fate hslot with hold | ⟨d,hd,rfl,hlt⟩
  · obtain ⟨d,hd,heq⟩ := h.delivered slot hold
    exact ⟨d,List.mem_append_left _ hd,heq⟩
  · -- the batch was saved, so all of it is delivered
    refine ⟨published A d,List.mem_append_right _ (List.mem_map_of_mem ?_),rfl⟩
    have hall : w.fate.handed A (turn A w.env s.node.protocol r.1) =
        handovers (turn A w.env s.node.protocol r.1).decisions := by
      cases hf : w.fate with
      | completes => rfl
      | dies j =>
        rw [hf] at hwhole
        have hj := hlt j hf
        have hle := hwhole.resolve_left (by omega)
        exact List.take_of_length_le (by omega)
    rw [hall,delivered_handovers]
    exact hd

/-- In runs without a crash within a batch, every slot that counts as applied
after a turn was delivered in this or an earlier life. -/
theorem decisions_delivered (A : Adapter V W) (env : Env) (id : NodeId) (total : ℕ)
    (cfg : RaftConfig) (s s' : Delivery V W) (w : Wake V)
    (hr : Runs.Reaches (Delivery.step A) (WholeBatches A) (.start A env id total cfg) s)
    (hw : w.fate = .completes) (hs : s.step A w = some s') {last slot : ℕ}
    (hlast : s'.node.protocol.lastApplied = some last) (hle : slot ≤ last) :
    ∃ d ∈ s'.channel, d.slot = slot := by
  have hok : s.Ok A := hr.invariant (Delivery.Ok A) (.start A env id total cfg)
    fun _ _ _ _ ih hl hs => ih.step hl hs
  have hwhole : WholeBatches A s w := fun r _ => by
    rw [hw]
    trivial
  have hok' := hok.step hwhole hs
  obtain ⟨r,hr',rfl⟩ := Option.map_eq_some_iff.mp hs
  obtain ⟨k,hk⟩ := hok'.gapless
  refine hok'.delivered slot ((hk.stored slot).mpr ?_)
  -- nothing is left in the queue at the end of a turn
  have hnone : ((s.node.after A w.env (turn A w.env s.node.protocol r.1) r.2
      w.fate)).protocol.pendingDecisions = [] := by
    obtain ⟨lost,hfinal⟩ := turn_final A w.env s.node.protocol r.1
    rw [hw]
    simp only [RaftNode.after]
    rw [hfinal]
  have happ := hk.applied
  rw [hnone,RaftProtocol.appliedEnd,hlast] at happ
  simp only [List.length_nil] at happ
  omega

instance (A : Adapter V W) (t : Turn V W) : (fate : Fate) → Decidable (fate.Whole A t)
  | .completes => isTrue trivial
  | .dies k => inferInstanceAs (Decidable (k ≤ t.calls.length + t.outgoing.length + 1 ∨
      (t.effects A).length + (handovers t.decisions).length ≤ k))

instance (A : Adapter V W) (s : Delivery V W) (w : Wake V) : Decidable (WholeBatches A s w) :=
  inferInstanceAs (Decidable (∀ r ∈ s.node.accepts w.input,
    w.fate.Whole A (turn A w.env s.node.protocol r.1)))

def loneStart : Delivery (Pending ℕ) ℕ := .start .pending ⟨0,0⟩ ⟨"a",1⟩ 1 ⟨50,150,300⟩

def wakeAt (now : ℕ) (value : Option (Pending ℕ)) (fate : Fate) : Wake (Pending ℕ) :=
  ⟨⟨now,0⟩,some (value.elim .tick .propose),fate⟩

/-- A lone node decides 7 and crashes before 7 is saved. -/
def crashedEarly : Delivery (Pending ℕ) ℕ :=
  Runs.after (Delivery.step .pending) (WholeBatches .pending) loneStart
    [wakeAt 1000 none .completes,wakeAt 1001 (some ⟨1,7⟩) (.dies 4)] (by decide +kernel)

def deliveredLater : Delivery (Pending ℕ) ℕ :=
  (crashedEarly.step .pending (wakeAt 1002 none .completes)).get (by decide +kernel)

theorem decisions_delivered_later :
    deliveredLater.node.protocol.lastApplied = some 0 ∧ ∃ d ∈ deliveredLater.channel, d.slot = 0 :=
  ⟨by decide +kernel,decisions_delivered .pending ⟨0,0⟩ ⟨"a",1⟩ 1 ⟨50,150,300⟩ crashedEarly
    deliveredLater (wakeAt 1002 none .completes) (Runs.after_reaches .start (by decide +kernel)) rfl
    (Option.some_get _).symm (by decide +kernel) le_rfl⟩

/-- A lone node decides 7 and crashes when 7 is saved and not yet delivered. -/
def crashedLate : Delivery (Pending ℕ) ℕ :=
  Runs.after (Delivery.step .pending) (fun _ _ => True) loneStart
    [wakeAt 1000 none .completes,wakeAt 1001 (some ⟨1,7⟩) (.dies 5)] (by decide +kernel)

theorem decision_never_delivered :
    Runs.Reaches (Delivery.step .pending) (fun _ _ => True) loneStart crashedLate ∧
      ∃ s', crashedLate.step .pending (wakeAt 1002 none .completes) = some s' ∧
        s'.node.protocol.lastApplied = some 0 ∧ s'.channel.map Decision.slot = [] :=
  ⟨Runs.after_reaches .start (by decide +kernel),_,(Option.some_get (by decide +kernel)).symm,
    by decide +kernel,by decide +kernel⟩

end Raft
end Daccord
