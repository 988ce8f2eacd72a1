import Daccord.Broadcast
import Daccord.RaftDelivery
import Daccord.RaftProposals

/-! Seen from outside, a Raft cluster whose links are queues is total order
broadcast: its nodes hand out one sequence of submitted values. -/
namespace Daccord
namespace Raft

open Broadcast (Event State submissions handed covering)

variable {V W : Type} {N : ℕ}

structure Observed (N : ℕ) (V : Type) where
  cluster : Cluster N V
  trace : List (Event (Fin N) V)

def Observed.init (M : Membership N) (env : Env) : Observed N V := ⟨.init M env,[]⟩

def handouts (xs : List (Fin N × Decision V)) : List (Event (Fin N) V) :=
  xs.map fun x => .deliver x.1 x.2.slot x.2.value

/-- The node that restarts in a step, on its own or because it dies in its turn. -/
def Cluster.restarted (M : Membership N) (s : Cluster N V) (l : Label V N) : Option (Fin N) :=
  match l, s.turnOf M l with
  | .restart i _, _ => some i
  | _, some (i,_,.dies _) => some i
  | _, _ => none

/-- What a step from `s` to `s'` shows: a submission, then decisions, then a restart. -/
def Cluster.shown (M : Membership N) (s : Cluster N V) (l : Label V N) (s' : Cluster N V) :
    List (Event (Fin N) V) :=
  l.submitted.toList.map .submit ++ handouts (s'.emitted.drop s.emitted.length) ++
    (s.restarted M l).toList.map .restart

def Observed.step (M : Membership N) (o : Observed N V) (l : Label V N) : Option (Observed N V) :=
  (o.cluster.step M l).map fun s => ⟨s,o.trace ++ o.cluster.shown M l s⟩

def Observed.InOrder (o : Observed N V) (l : Label V N) : Prop := Fifo o.cluster l

instance (o : Observed N V) (l : Label V N) : Decidable (o.InOrder l) :=
  inferInstanceAs (Decidable (Fifo o.cluster l))

theorem Fifo.unduplicated {s : Cluster N V} {l : Label V N} (h : Fifo s l) : Unduplicated s l := by
  cases l with
  | duplicate pos => exact h
  | _ => trivial

/-- What a turn hands out comes next, and what is then on disk was handed out: all of it,
unless the node dies. -/
theorem Gapless.emits {A : Adapter V W} {n : RaftNode V W} {k : ℕ} (h : Gapless n k)
    (hs : Synced A n) (env : Env) (input : Input V) (rest : List V) (fate : Fate) :
    let t := turn A env n.protocol input
    let ds := (fate.cut (t.effects A)).flatMap Effect.emitted
    Successive k ds ∧ ∃ k', Gapless (n.after A env t rest fate) k' ∧ k' ≤ k + ds.length ∧
      (fate = .completes → k' = k + ds.length) := by
  intro t ds
  have hsucc : Successive k t.decisions := (h.decisions hs env input).1
  obtain ⟨k',hk',hall⟩ := h.after hs env input rest fate
  have hds : ds = t.decisions ∨ (ds = [] ∧ ∃ j, fate = .dies j ∧
      ¬ t.calls.length + t.outgoing.length < j) := by
    cases fate with
    | completes =>
      left
      have hall := t.emitted_cut A (t.effects A).length
      rwa [List.take_length,if_pos (by simp [Turn.effects])] at hall
    | dies j =>
      have hcut := t.emitted_cut A j
      by_cases hj : t.calls.length + t.outgoing.length < j
      · rw [if_pos hj] at hcut
        exact Or.inl hcut
      · rw [if_neg hj] at hcut
        exact Or.inr ⟨hcut,j,rfl,hj⟩
  have hsuccds : Successive k ds := by
    rcases hds with hds | ⟨hds,_⟩
    · rw [hds]
      exact hsucc
    · rw [hds]
      exact .nil k
  refine ⟨hsuccds,k',hk',?_,fun hfate => ?_⟩
  swap
  · rcases hds with hds | ⟨_,j,hj,_⟩
    · rw [hds]
      exact hall hfate
    · cases hfate.symm.trans hj
  by_contra hlt
  -- the first slot behind those handed out would be on disk
  have hstored : k + ds.length ∈ n.storage.decisions ∨ ∃ d ∈ t.decisions,
      d.slot = k + ds.length ∧ ∀ j, fate = .dies j →
        t.calls.length + t.outgoing.length + 1 < j :=
    hs.stored env input rest fate ((hk'.stored (k + ds.length)).mpr (by omega))
  rcases hstored with hold | ⟨d,hd,hslot,hfate⟩
  · have := (h.stored _).mp hold
    omega
  · have hmem := hsucc.mem_slots.mp ⟨d,hd,hslot⟩
    rcases hds with hds | ⟨_,j,hj,hle⟩
    · rw [hds] at hmem
      omega
    · have := hfate j hj
      omega

/-- Slots that were handed out stem from as many submissions. -/
theorem Ledger.ordered {ls : List (Label V N)} {s : Cluster N V} {made : List (ℕ × LogEntry V)}
    (h : Ledger ls s made) {order : List V}
    (hord : ∀ n v, order[n]? = some v → ∃ i, (i,⟨n,v⟩) ∈ s.emitted) :
    order.Subperm (ls.filterMap Label.submitted) := by
  have hmade : ∀ n : Fin order.length, ∃ e, (n.1,e) ∈ made ∧ e.value = order[n] := by
    intro n
    obtain ⟨i,hi⟩ := hord n _ (List.getElem?_eq_getElem n.2)
    exact h.placed.emitted _ hi
  choose e he hv using hmade
  have hnodup : ((List.finRange order.length).map fun n => (n.1,e n)).Nodup :=
    (List.nodup_finRange _).map fun n m hnm => Fin.ext (congrArg Prod.fst hnm)
  have hsub : ((List.finRange order.length).map fun n => (n.1,e n)) ⊆ made := by
    intro x hx
    obtain ⟨n,_,rfl⟩ := List.mem_map.mp hx
    exact he n
  have hvalues : ((List.finRange order.length).map fun n => (n.1,e n)).map (fun x => x.2.value) =
      order := by
    rw [List.map_map]
    refine List.ext_getElem (by simp) fun n h1 h2 => ?_
    simp [hv]
  have hle := (Multiset.le_add_left _ _).trans h.once
  have hmap := Multiset.map_le_map (f := fun x : ℕ × LogEntry V => x.2.value)
    (Multiset.coe_le.mpr (List.subperm_of_subset hnodup hsub))
  rw [Multiset.map_coe,Multiset.map_coe,hvalues] at hmap
  exact Multiset.coe_le.mp (hmap.trans hle)

/-- The cluster has handed out what `b` has delivered. A node's cursor is the first
slot it has not on disk. -/
structure Broadcasts (o : Observed N V) (b : State (Fin N) V) : Prop where
  reached : Broadcast.Reached b
  trace : b.trace = o.trace
  cursor : ∀ i, Gapless (o.cluster.nodes i) (b.cursor i)
  order : ∀ n v, b.order[n]? = some v → ∃ i, (i,⟨n,v⟩) ∈ o.cluster.emitted

structure Observed.Ok (M : Membership N) (o : Observed N V) : Prop where
  inOrder : ∃ a, Raft.InOrder M a o.cluster
  ledger : ∃ ls made, Ledger ls o.cluster made ∧
    ls.filterMap Label.submitted = submissions o.trace

theorem Successive.slot_eq {k n : ℕ} {ds : List (Decision V)} {d : Decision V}
    (h : Successive k ds) (hd : ds[n]? = some d) : d.slot = k + n := by
  have hn := (List.getElem?_eq_some_iff.mp hd).1
  have hget := congrArg (·[n]?) h
  simp only [List.getElem?_map,hd,Option.map_some,List.getElem?_range' hn,Nat.one_mul] at hget
  exact Option.some.inj hget

theorem handed_eq {i : Fin N} {k : ℕ} {ds : List (Decision V)} (h : Successive k ds) :
    handed i k (ds.map Decision.value) = handouts (ds.map fun d => (i,d)) := by
  refine List.ext_getElem (by simp [handed,handouts]) fun n h1 h2 => ?_
  have hn : n < ds.length := by simpa [handouts] using h2
  simp [handed,handouts,h.slot_eq (List.getElem?_eq_getElem hn)]

theorem submissions_handouts (xs : List (Fin N × Decision V)) : submissions (handouts xs) = [] := by
  simp [submissions,handouts,List.filterMap_map,Function.comp_def,Event.submitted]

theorem submissions_submitted (v : Option V) :
    submissions (v.toList.map (Event.submit (ι := Fin N))) = v.toList := by
  cases v <;> rfl

theorem submissions_shown (M : Membership N) (s : Cluster N V) (l : Label V N) (s' : Cluster N V) :
    submissions (s.shown M l s') = l.submitted.toList := by
  have hrestart : submissions ((s.restarted M l).toList.map (Event.restart (V := V))) = [] := by
    cases s.restarted M l <;> rfl
  rw [Cluster.shown,Broadcast.submissions_append,Broadcast.submissions_append,submissions_handouts,
    hrestart,List.append_nil,List.append_nil,submissions_submitted]

section
variable {M : Membership N} {o o' : Observed N V} {l : Label V N}

theorem Observed.step_trace (hs : o.step M l = some o') :
    o'.trace = o.trace ++ o.cluster.shown M l o'.cluster := by
  obtain ⟨s,_,rfl⟩ := Option.map_eq_some_iff.mp hs
  rfl

theorem Cluster.Wakes.restarted {s : Cluster N V} {i : Fin N} {env : Env} {input : Input V}
    {rest : List V} {fate : Fate} {flight : List (Packet N V)}
    (h : s.Wakes M l i env input rest fate flight) :
    s.restarted M l = if fate = .completes then none else some i := by
  have hturn := h.turnOf
  cases h <;> cases fate <;> simp [Cluster.restarted,hturn]

theorem Observed.Ok.step (h : o.Ok M) (hl : o.InOrder l) (hs : o.step M l = some o') : o'.Ok M := by
  obtain ⟨s,hstep,rfl⟩ := Option.map_eq_some_iff.mp hs
  obtain ⟨a,ha⟩ := h.inOrder
  obtain ⟨a',_,ha'⟩ := ha.step hl hstep
  obtain ⟨ls,made,hmade,hls⟩ := h.ledger
  obtain ⟨made',hmade'⟩ := hmade.step (Fifo.unduplicated hl) hstep
  refine ⟨⟨a',ha'⟩,ls ++ [l],made',hmade',?_⟩
  rw [List.filterMap_append,hls,Broadcast.submissions_append,submissions_shown]
  cases hv : l.submitted with
  | none => simp [hv]
  | some v => simp [hv]

theorem Broadcasts.submits {b : State (Fin N) V} (h : Broadcast.Reached b) (v : Option V) :
    Broadcast.Reached { b with trace := b.trace ++ v.toList.map .submit } := by
  cases v with
  | none => simpa using h
  | some v => exact h.tail (.submit v)

/-- A reader that dies goes on from a slot that it has been handed before, any other one
where it is. -/
theorem Broadcasts.ends {b : State (Fin N) V} (h : Broadcast.Reached b) {i : Fin N} {k : ℕ}
    (fate : Fate) (hle : k ≤ b.cursor i) (hall : fate = .completes → k = b.cursor i) :
    Broadcast.Reached { b with
      cursor := Function.update b.cursor i k
      trace := b.trace ++ (if fate = .completes then none else some i).toList.map .restart } := by
  cases fate with
  | completes =>
    rw [hall rfl]
    simpa using h
  | dies j => exact h.tail (.restart i k hle)

theorem Broadcasts.wakes {b : State (Fin N) V} (h : Broadcasts o b) (hok : o.Ok M) {i : Fin N}
    {env : Env} {input : Input V} {rest : List V} {fate : Fate} {flight : List (Packet N V)}
    (hw : o.cluster.Wakes M l i env input rest fate flight) (hs : o.step M l = some o')
    (hs' : o'.cluster = { o.cluster with flight := flight }.take M i env input rest fate)
    (hok' : o'.Ok M) : ∃ b', Broadcasts o' b' := by
  obtain ⟨a,ha⟩ := hok.inOrder
  obtain ⟨a',ha'⟩ := hok'.inOrder
  obtain ⟨ls,made,hmade,hls⟩ := hok'.ledger
  set t := turn .exact env (o.cluster.nodes i).protocol input with ht
  set ds := (fate.cut (t.effects .exact)).flatMap Effect.emitted with hdsdef
  obtain ⟨hsucc,k',hk',hle,hall⟩ : Successive (b.cursor i) ds ∧ ∃ k',
      Gapless ((o.cluster.nodes i).after .exact env t rest fate) k' ∧
        k' ≤ b.cursor i + ds.length ∧ (fate = .completes → k' = b.cursor i + ds.length) :=
    (h.cursor i).emits (ha.ok.nodes i).synced env input rest fate
  have hemitted : o'.cluster.emitted = o.cluster.emitted ++ ds.map fun d => (i,d) := by rw [hs']; rfl
  have htrace : o'.trace = o.trace ++ l.submitted.toList.map .submit ++
      handed i (b.cursor i) (ds.map Decision.value) ++
        (if fate = .completes then none else some i).toList.map .restart := by
    rw [handed_eq hsucc,Observed.step_trace hs,Cluster.shown,hemitted,List.drop_left,hw.restarted,
      ← List.append_assoc,← List.append_assoc]
  have hcur : b.cursor i ≤ b.order.length := h.reached.sound.cursor i
  -- the slots handed out so far, those of this turn included
  have hat : ∀ n v, (ds.map Decision.value)[n]? = some v →
      (i,⟨b.cursor i + n,v⟩) ∈ o'.cluster.emitted := by
    intro n v hv
    rw [List.getElem?_map] at hv
    obtain ⟨d,hd,rfl⟩ := Option.map_eq_some_iff.mp hv
    rw [hemitted,← hsucc.slot_eq hd]
    exact List.mem_append_right _ (List.mem_map_of_mem (List.mem_of_getElem? hd))
  have hold : ∀ n v, b.order[n]? = some v → ∃ j, (j,⟨n,v⟩) ∈ o'.cluster.emitted := by
    intro n v hv
    obtain ⟨j,hj⟩ := h.order n v hv
    exact ⟨j,hemitted ▸ List.mem_append_left _ hj⟩
  have horder : ∀ n v, (covering b.order (b.cursor i) (ds.map Decision.value))[n]? = some v →
      ∃ j, (j,⟨n,v⟩) ∈ o'.cluster.emitted := by
    intro n v hv
    rw [covering] at hv
    rcases Nat.lt_or_ge n b.order.length with hn | hn
    · rw [List.getElem?_append_left hn] at hv
      exact hold n v hv
    · rw [List.getElem?_append_right hn,List.getElem?_drop] at hv
      have := hat _ v hv
      rw [show b.cursor i + (b.order.length - b.cursor i + (n - b.order.length)) = n by omega] at this
      exact ⟨i,this⟩
  have hdeliver := Broadcast.deliver_all i (ds.map Decision.value)
    { b with trace := b.trace ++ l.submitted.toList.map .submit } hcur
    (by
      have hsub := hmade.ordered horder
      rw [hls,Observed.step_trace hs,Broadcast.submissions_append,submissions_shown,← h.trace] at hsub
      rwa [Broadcast.submissions_append,submissions_submitted])
    (fun n v w hv hw => by
      obtain ⟨j,hj⟩ := hold _ w hw
      exact (ha'.ok.emitted trivial _ hj).agree ha'.ok.sound trivial
        (ha'.ok.emitted trivial _ (hat n v hv)) rfl)
  have hreached := (Broadcasts.submits h.reached l.submitted).trans hdeliver
  refine ⟨_,Broadcasts.ends hreached (i := i) (k := k') fate ?_ ?_,?_,fun j => ?_,horder⟩
  · simpa using hle
  · simpa using hall
  · simp only [htrace,h.trace]
  · rw [hs']
    by_cases hj : j = i
    · subst hj
      simpa [Cluster.take] using hk'
    · simpa [Cluster.take,hj] using h.cursor j

theorem Broadcasts.step {b : State (Fin N) V} (h : Broadcasts o b) (hok : o.Ok M)
    (hl : o.InOrder l) (hs : o.step M l = some o') : ∃ b', Broadcasts o' b' := by
  have hok' := hok.step hl hs
  obtain ⟨s,hstep,ho⟩ := Option.map_eq_some_iff.mp hs
  subst ho
  rcases Cluster.step_cases hstep with ⟨i,env,input,rest,fate,flight,hw,rfl⟩ | ⟨i,env,rfl,rfl⟩ |
    ⟨pos,rfl,rfl⟩ | ⟨pos,pkt,rfl,hpkt,rfl⟩
  · exact h.wakes hok hw hs rfl hok'
  · refine ⟨_,h.reached.tail (.restart i (b.cursor i) le_rfl),?_,fun j => ?_,h.order⟩
    · simp [Cluster.shown,Cluster.restarted,Label.submitted,handouts,h.trace]
    · by_cases hj : j = i
      · subst hj
        simp only [Function.update_self]
        exact Gapless.boot .exact env _ _ _ (h.cursor j).stored
      · simpa [hj] using h.cursor j
  · refine ⟨b,h.reached,?_,h.cursor,h.order⟩
    simp [Cluster.shown,Cluster.restarted,Cluster.turnOf,Label.submitted,handouts,h.trace]
  · exact hl.elim

theorem Observed.Ok.init (M : Membership N) (env : Env) : (Observed.init (V := V) M env).Ok M :=
  ⟨⟨_,Raft.InOrder.init M env⟩,[],[],Ledger.init M env,rfl⟩

theorem Broadcasts.init (M : Membership N) (env : Env) :
    Broadcasts (V := V) (.init M env) .start := by
  refine ⟨.refl,rfl,fun i => ?_,?_⟩
  · exact .boot .exact env (M.ids i) N M.config fun slot => by simp [State.start,RaftStorage.new]
  · intro n v hv
    cases hv

end

end Raft
end Daccord
