import Daccord.PaxosNodes

/-! Submissions of Paxos nodes without `multi-paxos`: a user value that is
submitted once is in one place at a time, and the slots it was proposed in before
are closed to it. -/
namespace Daccord
namespace Paxos

variable {V : Type} {N : ℕ}

/-- A `Decide` for a slot where the node proposes the same user value has the
nonce of the node's proposal. -/
def PaxosProtocol.SameNonce (p : PaxosProtocol (Pending V)) : Input (Pending V) → Prop
  | .message _ (.decide slot w) => ∀ v ∈ p.proposal slot, v.value = w.value → v.nonce = w.nonce
  | _ => True

def Nodes.Matching (s : Nodes N V) (l : Nodes.Label V N) : Prop :=
  ∀ t ∈ s.turn l, (s.nodes t.node).protocol.SameNonce t.input

section
variable {M : Membership N} {s s' : Nodes N V} {l : Nodes.Label V N} {n n' : PaxosNode V} {u : V}

/-- Lost, and not proposed again yet. -/
def PaxosNode.waiting (n : PaxosNode V) : List (Pending V) :=
  n.protocol.lostProposals ++ n.backlog

def PaxosNode.Proposes (n : PaxosNode V) (u : V) (slot : ℕ) : Prop :=
  ∃ v ∈ n.protocol.proposal slot, v.value = u

def PaxosNode.Holds (n : PaxosNode V) (u : V) : Prop :=
  (∃ v ∈ n.waiting, v.value = u) ∨ ∃ slot, n.Proposes u slot

variable [DecidableEq V]

/-- `n'` has no more of `u` to propose than `n`. -/
structure Fewer (u : V) (n' n : PaxosNode V) : Prop where
  waiting : (n'.waiting.countP fun v => v.value = u) ≤ n.waiting.countP fun v => v.value = u
  proposes : ∀ {slot}, n'.Proposes u slot → n.Proposes u slot

theorem Fewer.waits (h : Fewer u n' n) (hw : ∃ v ∈ n'.waiting, v.value = u) :
    ∃ v ∈ n.waiting, v.value = u := by
  have hpos : 0 < n'.waiting.countP fun v => v.value = u := by simpa [List.countP_pos_iff] using hw
  simpa [List.countP_pos_iff] using hpos.trans_le h.waiting

theorem Fewer.holds (h : Fewer u n' n) (hh : n'.Holds u) : n.Holds u :=
  hh.imp h.waits fun ⟨slot,hs⟩ => ⟨slot,h.proposes hs⟩

theorem Fewer.refl (u : V) (n : PaxosNode V) : Fewer u n n := ⟨le_rfl,id⟩

theorem Fewer.start (env : PaxosEnv) (id : NodeId) (storage : AList fun _ : ℕ => V) :
    Fewer u (PaxosNode.start M env id storage) n := by
  obtain ⟨decided,next,heq,_⟩ := PaxosProtocol.initializeFromDecisions_frame
    (storage.entries.map fun d => (d.1,(⟨0,d.2⟩ : Pending V))) (.new M.multi env id N M.config)
  have hp : (PaxosNode.start M env id storage).protocol = _ := heq
  have hnone : (PaxosNode.start M env id storage).waiting = [] := by
    rw [PaxosNode.waiting,hp]
    rfl
  refine ⟨by simp [hnone],fun ⟨v,hv,_⟩ => ?_⟩
  rw [hp] at hv
  cases hv

/-- The end of a turn moves the lost proposals to the loop, or loses them. -/
theorem Fewer.finish (q : PaxosProtocol (Pending V)) (input : Input (Pending V))
    (rest : List (Pending V)) (ending : Ending) :
    Fewer u (n.finish M q input rest ending) ⟨q,n.storage,rest⟩ := by
  cases ending with
  | completes =>
    cases input with
    | message sender msg =>
      refine ⟨?_,id⟩
      simp only [PaxosNode.waiting,PaxosNode.finish,PaxosProtocol.takeLostProposals,
        PaxosProtocol.takeDecisions,List.nil_append,List.countP_append]
      omega
    | propose v => exact ⟨le_rfl,id⟩
    | tick => exact ⟨le_rfl,id⟩
  | dies saves env incarnation => exact .start env _ _

/-- Another user value than `u` was decided in the slot. -/
def Closed (decided : List (ℕ × V)) (u : V) (slot : ℕ) : Prop :=
  ∃ d ∈ decided, d.1 = slot ∧ d.2 ≠ u

/-- The user value `u`, submitted once, is in one place, and the slots it was
proposed in before are closed. -/
structure Single (u : V) (nodes : Fin N → PaxosNode V) (claims : List (ℕ × Pending V))
    (submitted : List (Pending V)) (decided : List (ℕ × V)) : Prop where
  once : ∀ i, ((nodes i).waiting.countP fun v => v.value = u) ≤ 1
  apart : ∀ {i slot}, (∃ v ∈ (nodes i).waiting, v.value = u) → ¬ (nodes i).Proposes u slot
  slot : ∀ {i slot slot'}, (nodes i).Proposes u slot → (nodes i).Proposes u slot' → slot = slot'
  holder : ∀ {i j}, (nodes i).Holds u → (nodes j).Holds u → i = j
  origin : ∀ {i}, (nodes i).Holds u → ∃ v ∈ submitted, v.value = u
  claimed : ∀ c ∈ claims, c.2.value = u → ∃ v ∈ submitted, v.value = u
  waits : ∀ {i}, (∃ v ∈ (nodes i).waiting, v.value = u) →
    ∀ c ∈ claims, c.2.value = u → Closed decided u c.1
  proposes : ∀ {i slot}, (nodes i).Proposes u slot →
    ∀ c ∈ claims, c.2.value = u → c.1 = slot ∨ Closed decided u c.1
  open_unique : ∀ c ∈ claims, ∀ c' ∈ claims, c.2.value = u → c'.2.value = u →
    c.1 = c'.1 ∨ Closed decided u c.1 ∨ Closed decided u c'.1

variable {nodes nodes' : Fin N → PaxosNode V} {claims claims' : List (ℕ × Pending V)}
  {submitted : List (Pending V)} {decided decided' : List (ℕ × V)} {i : Fin N}

omit [DecidableEq V] in
theorem Closed.more {slot : ℕ} (h : Closed decided u slot) (more : List (ℕ × V)) :
    Closed (decided ++ more) u slot := by
  obtain ⟨d,hd,heq⟩ := h
  exact ⟨d,List.mem_append_left _ hd,heq⟩

theorem Single.fewer (h : Single u nodes claims submitted decided)
    (hn : ∀ j, Fewer u (nodes' j) (nodes j)) (hc : ∀ c ∈ claims', c.2.value = u → c ∈ claims)
    (submission : List (Pending V)) (more : List (ℕ × V)) :
    Single u nodes' claims' (submitted ++ submission) (decided ++ more) where
  once j := (hn j).waiting.trans (h.once j)
  apart hw hp := h.apart ((hn _).waits hw) ((hn _).proposes hp)
  slot hp hp' := h.slot ((hn _).proposes hp) ((hn _).proposes hp')
  holder hi hj := h.holder ((hn _).holds hi) ((hn _).holds hj)
  origin hi := by
    obtain ⟨v,hv,heq⟩ := h.origin ((hn _).holds hi)
    exact ⟨v,List.mem_append_left _ hv,heq⟩
  claimed c hmem hu := by
    obtain ⟨v,hv,heq⟩ := h.claimed c (hc c hmem hu) hu
    exact ⟨v,List.mem_append_left _ hv,heq⟩
  waits hw c hmem hu := (h.waits ((hn _).waits hw) c (hc c hmem hu) hu).more more
  proposes hp c hmem hu :=
    (h.proposes ((hn _).proposes hp) c (hc c hmem hu) hu).imp_right fun hcl => hcl.more more
  open_unique c hmem c' hmem' hu hu' :=
    (h.open_unique c (hc c hmem hu) c' (hc c' hmem' hu') hu hu').imp_right
      (Or.imp (fun hcl => hcl.more more) fun hcl => hcl.more more)

theorem Single.fewer_nodes (h : Single u nodes claims submitted decided)
    (hn : ∀ j, Fewer u (nodes' j) (nodes j)) : Single u nodes' claims submitted decided := by
  have hsame := h.fewer hn (fun _ hc _ => hc) [] []
  rwa [List.append_nil,List.append_nil] at hsame

/-- `u` is proposed in a slot of its own while nobody else has it. -/
theorem Single.claim {v : Pending V} {slot : ℕ}
    (hclosed : ∀ c ∈ claims, c.2.value = u → Closed decided u c.1)
    (hidle : ∀ j, j ≠ i → ¬ (nodes j).Holds u) (hw : ¬ ∃ v ∈ (nodes i).waiting, v.value = u)
    (hp : ∀ slot', (nodes i).Proposes u slot' → slot' = slot)
    (hs : ∃ v ∈ submitted, v.value = u) :
    Single u nodes (claims ++ [(slot,v)]) submitted decided := by
  have hat : ∀ {j}, (nodes j).Holds u → j = i := fun {j} hj => by
    by_contra hne
    exact hidle j hne hj
  have hnw : ∀ j, ¬ ∃ v ∈ (nodes j).waiting, v.value = u := by
    intro j hj
    cases hat (Or.inl hj)
    exact hw hj
  have hcl : ∀ c ∈ claims ++ [(slot,v)], c.2.value = u → c.1 = slot ∨ Closed decided u c.1 := by
    intro c hc hu
    rcases List.mem_append.mp hc with hc | hc
    · exact Or.inr (hclosed c hc hu)
    · rw [List.mem_singleton.mp hc]
      exact Or.inl rfl
  refine ⟨fun j => ?_,fun hj => absurd hj (hnw _),fun {j s s'} hj hj' => ?_,
    fun hj hk => (hat hj).trans (hat hk).symm,fun _ => hs,fun _ _ _ => hs,
    fun hj => absurd hj (hnw _),fun {j s} hj c hc hu => ?_,fun c hc c' hc' hu hu' => ?_⟩
  · have hzero : (nodes j).waiting.countP (fun v => v.value = u) = 0 := by
      rw [List.countP_eq_zero]
      intro w hw' hwu
      exact hnw j ⟨w,hw',by simpa using hwu⟩
    omega
  · cases hat (Or.inr ⟨s,hj⟩)
    rw [hp s hj,hp s' hj']
  · cases hat (Or.inr ⟨s,hj⟩)
    rw [hp s hj]
    exact hcl c hc hu
  · rcases hcl c hc hu with heq | hcl'
    · rcases hcl c' hc' hu' with heq' | hcl''
      · exact Or.inl (heq.trans heq'.symm)
      · exact Or.inr (Or.inr hcl'')
    · exact Or.inr (Or.inl hcl')

/-- `u` loses its slot to another user value. -/
theorem Single.lose (h : Single u nodes claims submitted decided) {v : Pending V} {slot : ℕ}
    (hp : (nodes i).Proposes u slot) (hclosed : Closed decided' u slot)
    (hmore : ∀ {s}, Closed decided u s → Closed decided' u s)
    (hother : ∀ j, j ≠ i → nodes' j = nodes j)
    (hw : (nodes' i).waiting = (nodes i).waiting ++ [v])
    (hpi : ∀ {s}, (nodes' i).Proposes u s → (nodes i).Proposes u s ∧ s ≠ slot) :
    Single u nodes' claims submitted decided' := by
  have hi : (nodes i).Holds u := Or.inr ⟨slot,hp⟩
  have hat : ∀ {j}, (nodes' j).Holds u → j = i := by
    intro j hj
    by_contra hne
    rw [hother j hne] at hj
    exact hne (h.holder hj hi)
  have hnp : ∀ j s, ¬ (nodes' j).Proposes u s := by
    intro j s hj
    cases hat (Or.inr ⟨s,hj⟩)
    exact (hpi hj).2 (h.slot (hpi hj).1 hp)
  have hcl : ∀ c ∈ claims, c.2.value = u → Closed decided' u c.1 := by
    intro c hc hu
    rcases h.proposes hp c hc hu with heq | hcl
    · exact heq ▸ hclosed
    · exact hmore hcl
  refine ⟨fun j => ?_,fun _ => hnp _ _,fun hj => absurd hj (hnp _ _),
    fun hj hk => (hat hj).trans (hat hk).symm,fun _ => h.origin hi,h.claimed,fun _ => hcl,
    fun hj => absurd hj (hnp _ _),fun c hc _ _ hu _ => Or.inr (Or.inl (hcl c hc hu))⟩
  by_cases hj : j = i
  · -- nothing of `u` was waiting while it was proposed
    subst hj
    have hzero : (nodes j).waiting.countP (fun v => v.value = u) = 0 := by
      rw [List.countP_eq_zero]
      intro w hw' hwu
      exact h.apart ⟨w,hw',by simpa using hwu⟩ hp
    rw [hw,List.countP_append,hzero]
    simpa using List.countP_le_length (p := fun v : Pending V => decide (v.value = u)) (l := [v])
  · rw [hother j hj]
    exact h.once j

def Nodes.Single (s : Nodes N V) (u : V) : Prop :=
  Paxos.Single u s.nodes s.claims s.submitted s.decided

theorem Nodes.Single.init (M : Membership N) (env : PaxosEnv) (u : V) :
    (Nodes.init M env).Single u := by
  have hno : ∀ i, ¬ ((Nodes.init M env : Nodes N V).nodes i).Holds u := by
    rintro i (⟨v,hv,_⟩ | ⟨slot,v,hv,_⟩)
    · cases hv
    · cases hv
  exact ⟨fun _ => Nat.zero_le _,fun hw => absurd (Or.inl hw) (hno _),
    fun hp => absurd (Or.inr ⟨_,hp⟩) (hno _),fun hi => absurd hi (hno _),fun hi => absurd hi (hno _),
    nofun,fun _ => nofun,fun _ => nofun,nofun⟩

section
variable {t : Turn V N} {v : Pending V}

/-- The node of a turn after the call, with the rest of its loop. -/
def Nodes.mid (s : Nodes N V) (t : Turn V N) : PaxosNode V :=
  ⟨((s.nodes t.node).protocol.handle t.env t.input).1,(s.nodes t.node).storage,t.rest⟩

def Nodes.news (s : Nodes N V) (t : Turn V N) : List (ℕ × V) :=
  (s.mid t).protocol.takeDecisions.2.map fun d => (d.slot,d.value.value)

theorem Nodes.Ok.mid_proposes (h : s.Ok) {slot : ℕ} (hp : (s.mid t).Proposes u slot) :
    (s.nodes t.node).Proposes u slot ∨
      slot = (s.nodes t.node).protocol.nextSlot ∧ ∃ v, t.input = .propose v ∧ v.value = u := by
  obtain ⟨v,hv,hvu⟩ := hp
  have hn := h.nodes t.node
  rcases (handle_sponsors hn.tidy hn.leaderless t.env t.input).proposed hv with hv | ⟨hs,hin⟩
  · exact Or.inl ⟨v,hv,hvu⟩
  · exact Or.inr ⟨hs,v,hin,hvu⟩

theorem Nodes.Ok.mid_lost (h : s.Ok) (hin : ∀ sender slot w, t.input ≠ .message sender (.decide slot w)) :
    (s.mid t).protocol.lostProposals = (s.nodes t.node).protocol.lostProposals := by
  have hn := h.nodes t.node
  rcases (handle_sponsors hn.tidy hn.leaderless t.env t.input).lost with heq | ⟨_,_,_,_,heq,_⟩
  · exact heq
  · exact absurd heq (hin _ _ _)

theorem Nodes.Single.submit (hok : s.Ok) (h : s.Single u) (hin : t.input = .propose v)
    (hb : (s.nodes t.node).backlog = []) (hr : t.rest = []) (hv : v.value = u)
    (hu : ((s.submitted ++ [v]).countP fun v => v.value = u) ≤ 1) :
    Paxos.Single u (Function.update s.nodes t.node (s.mid t))
      (s.claims ++ [((s.nodes t.node).protocol.nextSlot,v)]) (s.submitted ++ [v])
      (s.decided ++ s.news t) := by
  have hnew : ¬ ∃ w ∈ s.submitted, w.value = u := by
    rintro ⟨w,hw,hwu⟩
    have hpos : 0 < s.submitted.countP fun v => v.value = u :=
      List.countP_pos_iff.mpr ⟨w,hw,by simpa using hwu⟩
    have hone : [v].countP (fun v => v.value = u) = 1 := by simp [hv]
    rw [List.countP_append,hone] at hu
    omega
  have hno : ∀ j, ¬ (s.nodes j).Holds u := fun j hj => hnew (h.origin hj)
  refine .claim (i := t.node) (fun c hc hcu => absurd (h.claimed c hc hcu) hnew)
    (fun j hj => ?_) ?_ (fun slot hp => ?_) ⟨v,List.mem_append_right _ List.mem_cons_self,hv⟩
  · rw [Function.update_of_ne hj]
    exact hno j
  · rw [Function.update_self,PaxosNode.waiting,hok.mid_lost fun _ _ _ => by rw [hin]; exact nofun]
    rintro ⟨w,hw,hwu⟩
    refine hno t.node (Or.inl ⟨w,?_,hwu⟩)
    rw [PaxosNode.waiting,hb,← hr]
    exact hw
  · rw [Function.update_self] at hp
    rcases hok.mid_proposes hp with hp | ⟨hs,_⟩
    · exact absurd (Or.inr ⟨slot,hp⟩) (hno t.node)
    · exact hs

theorem Nodes.Single.again (hok : s.Ok) (h : s.Single u) (hin : t.input = .propose v)
    (hb : (s.nodes t.node).backlog = v :: t.rest) (hv : v.value = u) :
    Paxos.Single u (Function.update s.nodes t.node (s.mid t))
      (s.claims ++ [((s.nodes t.node).protocol.nextSlot,v)]) s.submitted
      (s.decided ++ s.news t) := by
  have hmem : v ∈ (s.nodes t.node).waiting := by
    rw [PaxosNode.waiting,hb]
    exact List.mem_append_right _ List.mem_cons_self
  have hwait : ∃ w ∈ (s.nodes t.node).waiting, w.value = u := ⟨v,hmem,hv⟩
  refine .claim (i := t.node) (fun c hc hcu => (h.waits hwait c hc hcu).more _) (fun j hj => ?_) ?_
    (fun slot hp => ?_) (h.origin (Or.inl hwait))
  · rw [Function.update_of_ne hj]
    exact fun hh => hj (h.holder hh (Or.inl hwait))
  · rw [Function.update_self,PaxosNode.waiting,hok.mid_lost fun _ _ _ => by rw [hin]; exact nofun]
    intro hw
    have honce := h.once t.node
    have hpos : 0 < ((s.nodes t.node).protocol.lostProposals ++ t.rest).countP
        fun v => v.value = u := by
      obtain ⟨w,hw,hwu⟩ := hw
      exact List.countP_pos_iff.mpr ⟨w,hw,by simpa using hwu⟩
    have hone : (v :: t.rest).countP (fun v => v.value = u) =
        t.rest.countP (fun v => v.value = u) + 1 := by simp [hv]
    rw [PaxosNode.waiting,hb,List.countP_append,hone] at honce
    rw [List.countP_append] at hpos
    omega
  · rw [Function.update_self] at hp
    rcases hok.mid_proposes hp with hp | ⟨hs,_⟩
    · exact absurd hp (h.apart hwait)
    · exact hs

theorem Nodes.Single.other (hok : s.Ok) (h : s.Single u)
    (hin : ∀ v, t.input = .propose v → v.value ≠ u)
    (hw : ((s.mid t).waiting.countP fun v => v.value = u) ≤
      (s.nodes t.node).waiting.countP fun v => v.value = u) (submission : List (Pending V)) :
    Paxos.Single u (Function.update s.nodes t.node (s.mid t))
      (s.claims ++ (s.nodes t.node).protocol.claimed t.input) (s.submitted ++ submission)
      (s.decided ++ s.news t) := by
  refine Single.fewer h (fun j => ?_) (fun c hc hcu => ?_) submission (s.news t)
  · by_cases hj : j = t.node
    · subst hj
      rw [Function.update_self]
      refine ⟨hw,fun hp => (hok.mid_proposes hp).resolve_right ?_⟩
      rintro ⟨_,v,hv,hvu⟩
      exact hin v hv hvu
    · rw [Function.update_of_ne hj]
      exact .refl u _
  · rcases List.mem_append.mp hc with hc | hc
    · exact hc
    · cases hinput : t.input with
      | propose v =>
        rw [hinput] at hc
        cases List.mem_singleton.mp hc
        exact absurd hcu (hin v hinput)
      | message sender msg =>
        rw [hinput] at hc
        cases hc
      | tick =>
        rw [hinput] at hc
        cases hc

/-- A message: `u` may be lost to a `Decide`, and then another user value is
decided in its slot. -/
theorem Nodes.Single.message (hok : s.Ok) (h : s.Single u) (hnp : ∀ v, t.input ≠ .propose v)
    (hb : (s.nodes t.node).backlog = []) (hr : t.rest = [])
    (hmatch : (s.nodes t.node).protocol.SameNonce t.input) :
    Paxos.Single u (Function.update s.nodes t.node (s.mid t))
      (s.claims ++ (s.nodes t.node).protocol.claimed t.input) (s.submitted ++ [])
      (s.decided ++ s.news t) := by
  have hn := hok.nodes t.node
  have hwait : (s.nodes t.node).waiting = (s.nodes t.node).protocol.lostProposals := by
    rw [PaxosNode.waiting,hb,List.append_nil]
  have hmid : (s.mid t).waiting = (s.mid t).protocol.lostProposals := by
    change (s.mid t).protocol.lostProposals ++ t.rest = _
    rw [hr,List.append_nil]
  rcases (handle_sponsors hn.tidy hn.leaderless t.env t.input).lost with heq |
    ⟨sender,slot,v,w,hin,heq,hne,hp,hd⟩
  · refine h.other hok (fun v hv => absurd hv (hnp v)) (le_of_eq ?_) []
    rw [hwait,hmid]
    exact congrArg _ heq
  · have heq' : (s.mid t).waiting = (s.nodes t.node).waiting ++ [v] := by
      rw [hwait,hmid]
      exact heq
    by_cases hvu : v.value = u
    · have hwu : w.value ≠ u := by
        intro hwu
        rw [hin] at hmatch
        have hnonce := hmatch v hp (hvu.trans hwu.symm)
        have hvalue := hvu.trans hwu.symm
        cases v
        cases w
        cases hnonce
        cases hvalue
        exact hne rfl
      have hclaim : s.claims ++ (s.nodes t.node).protocol.claimed t.input = s.claims := by
        rw [hin]
        exact List.append_nil _
      have htidy := (handle_single hn.tidy hn.leaderless t.env t.input).tidy hn.tidy
      rw [hclaim,List.append_nil]
      refine Single.lose h (i := t.node) (v := v) ⟨v,hp,hvu⟩ ?_ (fun hcl => hcl.more _)
        (fun j hj => Function.update_of_ne hj ..) ?_ fun {slot'} hp' => ?_
      · exact ⟨(slot,w.value),List.mem_append_right _ (List.mem_map.mpr ⟨⟨slot,w⟩,hd,rfl⟩),rfl,hwu⟩
      · rw [Function.update_self]
        exact heq'
      · rw [Function.update_self] at hp'
        refine ⟨(hok.mid_proposes hp').resolve_right ?_,?_⟩
        · rintro ⟨_,v,hv,_⟩
          exact hnp v hv
        · rintro rfl
          obtain ⟨x,hx,_⟩ := hp'
          have hnone := htidy.proposal_decided (mem_of_lookup (htidy.pending _ hd))
          cases hnone.symm.trans hx
    · refine h.other hok (fun v hv => absurd hv (hnp v)) (le_of_eq ?_) []
      rw [heq',List.countP_append]
      simp [hvu]

theorem Nodes.Single.elsewhere (hok : s.Ok) (h : s.Single u) {v : Pending V}
    (hin : t.input = .propose v) (hv : v.value ≠ u)
    (hrest : (t.rest.countP fun v => v.value = u) =
      (s.nodes t.node).backlog.countP fun v => v.value = u) (submission : List (Pending V)) :
    Paxos.Single u (Function.update s.nodes t.node (s.mid t))
      (s.claims ++ (s.nodes t.node).protocol.claimed t.input) (s.submitted ++ submission)
      (s.decided ++ s.news t) := by
  refine h.other hok ?_ (le_of_eq ?_) submission
  · intro w hw
    cases hin.symm.trans hw
    exact hv
  · have hlost := hok.mid_lost fun sender slot w heq => by cases hin.symm.trans heq
    rw [PaxosNode.waiting,PaxosNode.waiting,hlost]
    change List.countP _ (_ ++ t.rest) = _
    rw [List.countP_append,List.countP_append,hrest]

theorem Nodes.Single.call (hok : s.Ok) (h : s.Single u) (ht : s.turn l = some t)
    (hmatch : (s.nodes t.node).protocol.SameNonce t.input)
    (hu : ((s.submitted ++ l.submission).countP fun v => v.value = u) ≤ 1) :
    Paxos.Single u (Function.update s.nodes t.node (s.mid t))
      (s.claims ++ (s.nodes t.node).protocol.claimed t.input) (s.submitted ++ l.submission)
      (s.decided ++ s.news t) := by
  rcases Nodes.turn_cases ht with ⟨v,hin,hb,hr,hsub⟩ | ⟨v,hin,hb,hsub⟩ | ⟨hnp,hb,hr,hsub,_⟩
  · rw [hsub] at hu ⊢
    have hclaim : (s.nodes t.node).protocol.claimed t.input =
        [((s.nodes t.node).protocol.nextSlot,v)] := by rw [hin]; rfl
    by_cases hv : v.value = u
    · rw [hclaim]
      exact h.submit hok hin hb hr hv hu
    · exact h.elsewhere hok hin hv (by rw [hr,hb]) _
  · rw [hsub]
    have hclaim : (s.nodes t.node).protocol.claimed t.input =
        [((s.nodes t.node).protocol.nextSlot,v)] := by rw [hin]; rfl
    by_cases hv : v.value = u
    · rw [hclaim,List.append_nil]
      exact h.again hok hin hb hv
    · exact h.elsewhere hok hin hv (by simp [hb,hv]) _
  · rw [hsub]
    exact h.message hok hnp hb hr hmatch

theorem Nodes.Single.step (hok : s.Ok) (h : s.Single u) (hmatch : s.Matching l)
    (hu : (s'.submitted.countP fun v => v.value = u) ≤ 1) (hs : s.step M l = some s') :
    s'.Single u := by
  rcases Nodes.step_cases hs with ⟨t,ht,rfl⟩ | ⟨i,env,incarnation,_,rfl⟩
  · refine Single.fewer_nodes (h.call hok ht (hmatch t ht) hu) fun j => ?_
    by_cases hj : j = t.node
    · subst hj
      simp only [Nodes.take,Function.update_self]
      exact .finish _ t.input t.rest t.ending
    · simp only [Nodes.take,Function.update_of_ne hj]
      exact .refl u _
  · refine Single.fewer_nodes h fun j => ?_
    by_cases hj : j = i
    · subst hj
      simp only [Nodes.restart,Function.update_self]
      exact .start env _ _
    · simp only [Nodes.restart,Function.update_of_ne hj]
      exact .refl u _

end

/-- As long as a `Decide` for a slot where the node proposes the same user value has
the nonce of the proposal, a user value that is submitted once is decided in one
slot, provided that nodes agree on the user values of slots. -/
theorem submission_decided_once (hm : M.multi = false) {env : PaxosEnv}
    (h : Runs.Reaches (Nodes.step M) Nodes.Matching (.init M env) s)
    (hagree : ∀ d ∈ s.decided, ∀ d' ∈ s.decided, d.1 = d'.1 → d.2 = d'.2)
    (hu : (s.submitted.countP fun v => v.value = u) ≤ 1) :
    ∀ d ∈ s.decided, ∀ d' ∈ s.decided, d.2 = u → d'.2 = u → d.1 = d'.1 := by
  have hinv : s.Ok ∧ ((s.submitted.countP fun v => v.value = u) ≤ 1 → s.Single u) := by
    refine h.invariant (fun s => s.Ok ∧
      ((s.submitted.countP fun v => v.value = u) ≤ 1 → s.Single u)) ⟨.init hm env,fun _ => .init M env u⟩ ?_
    intro s l s' _ ⟨hok,hsingle⟩ hl hs
    refine ⟨hok.step hm hs,fun hcount => (hsingle ?_).step hok hl hcount hs⟩
    rcases Nodes.step_cases hs with ⟨t,_,rfl⟩ | ⟨i,env,incarnation,_,rfl⟩
    · rw [Nodes.take,List.countP_append] at hcount
      omega
    · exact hcount
  obtain ⟨hok,hsingle⟩ := hinv
  -- a slot where `u` is decided is not closed
  have hopen : ∀ d ∈ s.decided, d.2 = u → ¬ Closed s.decided u d.1 := by
    rintro d hd hdu ⟨e,he,hslot,hne⟩
    exact hne ((hagree e he d hd hslot).trans hdu)
  intro d hd d' hd' hdu hdu'
  obtain ⟨c,hc,hslot,hcu⟩ := hok.decided d hd
  obtain ⟨c',hc',hslot',hcu'⟩ := hok.decided d' hd'
  rcases (hsingle hu).open_unique c hc c' hc' (hcu.trans hdu) (hcu'.trans hdu') with heq | hcl | hcl
  · rw [← hslot,← hslot',heq]
  · exact absurd (hslot ▸ hcl) (hopen d hd hdu)
  · exact absurd (hslot' ▸ hcl) (hopen d' hd' hdu')

end

instance [DecidableEq V] (p : PaxosProtocol (Pending V)) :
    (input : Input (Pending V)) → Decidable (p.SameNonce input)
  | .message _ (.decide slot w) => inferInstanceAs (Decidable
      (∀ v ∈ p.proposal slot, v.value = w.value → v.nonce = w.nonce))
  | .propose _ | .tick | .message _ (.prepare ..) | .message _ (.promise ..)
  | .message _ (.accept ..) | .message _ (.accepted ..) | .message _ (.nackPrepare ..)
  | .message _ (.nackAccept ..) | .message _ (.forward ..) | .message _ (.heartbeat ..)
  | .message _ (.prepareLeader ..) | .message _ (.promiseLeader ..)
  | .message _ (.nackLeader ..) => .isTrue trivial

instance [DecidableEq V] (s : Nodes N V) (l : Nodes.Label V N) : Decidable (s.Matching l) :=
  inferInstanceAs (Decidable (∀ t ∈ s.turn l, (s.nodes t.node).protocol.SameNonce t.input))

/-- Node 2 wins slot 0 with 9, so that node 0 proposes its 7 again in slot 1. -/
def proposedAgain : List (Nodes.Label ℕ 3) :=
  [.act 0 (.steady 1) (some ⟨1,7⟩) .completes,.act 2 (.steady 2) (some ⟨2,9⟩) .completes,
    .deliver 3 (.steady 3) .completes,.deliver 4 (.steady 4) .completes,
    .deliver 6 (.steady 5) .completes,.deliver 7 (.steady 6) .completes,
    .deliver 8 (.steady 7) .completes,.repropose 0 (.steady 7) .completes,
    .deliver 10 (.steady 8) .completes,.deliver 12 (.steady 9) .completes,
    .deliver 13 (.steady 10) .completes,.deliver 15 (.steady 11) .completes]

def proposedAgainEnd : Nodes 3 ℕ :=
  Runs.after (Nodes.step (trio false)) Nodes.Matching (.init (trio false) (.steady 0)) proposedAgain
    (by decide +kernel)

theorem submission_decided_once_again :
    (proposedAgainEnd.decided = [(0,9),(0,9),(1,7)] ∧ proposedAgainEnd.claims.length = 3) ∧
    ∀ d ∈ proposedAgainEnd.decided, ∀ d' ∈ proposedAgainEnd.decided, d.2 = 7 → d'.2 = 7 →
      d.1 = d'.1 :=
  ⟨by decide +kernel,submission_decided_once rfl (Runs.after_reaches .start (by decide +kernel))
    (by decide +kernel) (by decide +kernel)⟩

/-- Node 2 adopts the 7 of node 0 in slot 0, decides it and restarts; it answers
the late `Prepare` of node 0 with the value it recovered. -/
def recoveredCopy : List (Nodes.Label ℕ 3) :=
  [.act 0 (.steady 1) (some ⟨1,7⟩) .completes,.deliver 0 (.steady 2) .completes,
    .deliver 2 (.steady 3) .completes,.deliver 3 (.steady 4) .completes,
    .act 2 (.steady 5) (some ⟨2,9⟩) .completes,.deliver 7 (.steady 6) .completes,
    .deliver 8 (.steady 7) .completes,.deliver 10 (.steady 8) .completes,
    .deliver 11 (.steady 9) .completes,.restart 2 (.steady 10) 2,
    .deliver 1 (.steady 11) .completes,.deliver 14 (.steady 12) .completes,
    .repropose 0 (.steady 12) .completes,.deliver 15 (.steady 13) .completes,
    .deliver 17 (.steady 14) .completes,.deliver 18 (.steady 15) .completes,
    .deliver 20 (.steady 16) .completes]

def recoveredCopyEnd : Nodes 3 ℕ :=
  Runs.after (Nodes.step (trio false)) (fun _ _ => True) (.init (trio false) (.steady 0))
    recoveredCopy (by decide +kernel)

theorem submission_decided_twice :
    Runs.Reaches (Nodes.step (trio false)) (fun _ _ => True) (.init (trio false) (.steady 0))
        recoveredCopyEnd ∧
      (recoveredCopyEnd.submitted.countP fun v => v.value = 7) = 1 ∧
      recoveredCopyEnd.decided = [(0,7),(0,7),(1,7)] :=
  ⟨Runs.after_reaches .start (by decide +kernel),by decide +kernel,by decide +kernel⟩

end Paxos
end Daccord
