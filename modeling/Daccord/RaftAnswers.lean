import Daccord.RaftReplicas
import Daccord.RaftDelivery

/-! Calls of `NodeHandle::propose` and their answers. A process keeps the calls it
has not answered in a `PendingMap`. A decision answers the call with its nonce; an
entry that was recovered from disk has nonce 0 and answers a call with its value. -/
namespace Daccord
namespace Raft

variable {V : Type} {N : ℕ}

/-- `PendingMap`: the values of the calls that wait for an answer, by nonce. -/
abbrev PendingMap (V : Type) := AList fun _ : ℕ => V

section
variable [DecidableEq V]

/-- The call whose entry `remove_for_decision` finds; it is known by its nonce. -/
def PendingMap.removeForDecision (m : PendingMap V) (pick : ℕ) (p : Pending V) :
    PendingMap V × Option ℕ :=
  let r := Daccord.removeForDecision id m pick p
  (r.1,r.2.map Prod.fst)

/-- The loop of `process_decisions`, as far as it answers calls: what stays of the
map, and the nonces of the calls that return with what they return. -/
def PendingMap.processDecisions (pick : ℕ → ℕ) :
    PendingMap V → List (Decision (Pending V)) → PendingMap V × List (ℕ × Decision V)
  | m, [] => (m,[])
  | m, d :: ds =>
    let r := m.removeForDecision (pick d.slot) d.value
    let rest := PendingMap.processDecisions pick r.1 ds
    (rest.1,(r.2.map fun nonce => (nonce,⟨d.slot,d.value.value⟩)).toList ++ rest.2)

end

/-- `Ok(Decided { slot, value })`, returned to the call with this nonce at `node`. -/
structure Answer (N : ℕ) (V : Type) where
  node : Fin N
  nonce : ℕ
  decided : Decision V
  deriving DecidableEq

/-- A fleet and the calls made to it. `calls` and `answers` are history. -/
structure Front (N : ℕ) (V : Type) where
  fleet : Fleet N (Pending V) V
  pending : Fin N → PendingMap V
  calls : List (Fin N × Pending V)
  answers : List (Answer N V)

def Front.init (M : Named N) (env : Env) : Front N V := ⟨.init .pending M env,fun _ => ∅,[],[]⟩

def Fleet.Label.submitted {T : Type} : Fleet.Label T N → Option (Fin N × T)
  | .act i _ (some value) _ => some (i,value)
  | _ => none

/-- `handle_submission` enters the call before anything else. -/
def Front.called (s : Front N V) (i : Fin N) (p : Pending V) : Front N V :=
  { s with
    pending := Function.update s.pending i ((s.pending i).insert p.nonce p.value)
    calls := s.calls ++ [(i,p)] }

def Front.received (s : Front N V) (l : Fleet.Label (Pending V) N) : Front N V :=
  match l.submitted with
  | some (i,p) => s.called i p
  | none => s

def Front.dropped (s : Front N V) (i : Fin N) : Front N V :=
  { s with pending := Function.update s.pending i ∅ }

section
variable [DecidableEq V]

def Front.answered (s : Front N V) (pick : ℕ → ℕ) (i : Fin N) (t : Turn (Pending V) V)
    (fate : Fate) : Front N V :=
  let r := (s.pending i).processDecisions pick
    ((fate.handed .pending t).filterMap Handover.answered)
  { s with
    pending := Function.update s.pending i r.1
    answers := s.answers ++ r.2.map fun x => ⟨i,x.1,x.2⟩ }

/-- What a step means for the calls: a turn may answer some, and the end of a
process takes its map with it. -/
def Front.attended (s : Front N V) (l : Fleet.Label (Pending V) N) (pick : ℕ → ℕ) : Front N V :=
  match s.fleet.turnOf .pending l, l with
  | some (i,t,.completes), _ => (s.received l).answered pick i t .completes
  | some (i,t,.dies k), _ => ((s.received l).answered pick i t (.dies k)).dropped i
  | none, .restart i _ _ => (s.received l).dropped i
  | none, _ => s.received l

/-- A step of the fleet, and which of several calls with the value of a recovered
entry comes first. -/
def Front.step (M : Named N) (s : Front N V) (l : Fleet.Label (Pending V) N × (ℕ → ℕ)) :
    Option (Front N V) :=
  (s.fleet.step .pending M l.1).map fun fleet => { s.attended l.1 l.2 with fleet := fleet }

end

def Front.Live (s : Front N V) (l : Fleet.Label (Pending V) N) : Prop :=
  ∀ x ∈ l.submitted, x.2.nonce ≠ 0 ∧ ∀ c ∈ s.calls, c.2.nonce ≠ x.2.nonce

/-- If a turn decides a recovered entry at a node where a call with its value
waits, this is the only call that was made with this value. -/
def Front.Unmistaken (s : Front N V) (l : Fleet.Label (Pending V) N) : Prop :=
  ∀ x ∈ s.fleet.turnOf .pending l, ∀ d ∈ x.2.1.decisions, d.value.nonce = 0 →
    ∀ e ∈ ((s.received l).pending x.1).entries, e.2 = d.value.value →
      ∀ c ∈ (s.received l).calls, c.2.value = d.value.value → c.2.nonce = e.1

instance (s : Front N V) (l : Fleet.Label (Pending V) N) : Decidable (s.Live l) :=
  inferInstanceAs (Decidable (∀ x ∈ l.submitted, _))

instance [DecidableEq V] (s : Front N V) (l : Fleet.Label (Pending V) N) :
    Decidable (s.Unmistaken l) :=
  inferInstanceAs (Decidable (∀ x ∈ s.fleet.turnOf .pending l, ∀ d ∈ x.2.1.decisions, _))

/-! What answering does to one map. -/

section
variable {m m' : PendingMap V}

/-- The decision `p` is meant for the call with this nonce. -/
def PendingMap.Meant (m : PendingMap V) (p : Pending V) (nonce : ℕ) : Prop :=
  p.nonce ≠ 0 ∧ nonce = p.nonce ∨ p.nonce = 0 ∧ ⟨nonce,p.value⟩ ∈ m.entries

structure PendingMap.Processed (m : PendingMap V) (ds : List (Decision (Pending V)))
    (m' : PendingMap V) (out : List (ℕ × Decision V)) : Prop where
  left : ∀ e ∈ m'.entries, e ∈ m.entries
  gone : ∀ x ∈ out, x.1 ∈ m ∧ x.1 ∉ m'
  once : out.Pairwise fun x y => x.1 ≠ y.1
  meant : ∀ x ∈ out, ∃ d ∈ ds, x.2 = ⟨d.slot,d.value.value⟩ ∧ m.Meant d.value x.1

theorem PendingMap.mem_entries {nonce : ℕ} : nonce ∈ m ↔ ∃ v, ⟨nonce,v⟩ ∈ m.entries := by
  rw [AList.mem_keys,AList.keys,List.mem_keys]

theorem PendingMap.mem_erase_entries {nonce : ℕ} {e : Sigma fun _ : ℕ => V}
    (h : e ∈ (m.erase nonce).entries) : e ∈ m.entries :=
  (List.kerase_sublist nonce m.entries).subset h

theorem PendingMap.mem_mono (h : ∀ e ∈ m'.entries, e ∈ m.entries) {nonce : ℕ} (hn : nonce ∈ m') :
    nonce ∈ m := by
  obtain ⟨v,he⟩ := PendingMap.mem_entries.mp hn
  exact PendingMap.mem_entries.mpr ⟨v,h _ he⟩

theorem PendingMap.Meant.mono (h : ∀ e ∈ m'.entries, e ∈ m.entries) {p : Pending V} {nonce : ℕ}
    (hp : m'.Meant p nonce) : m.Meant p nonce :=
  hp.imp_right fun hz => ⟨hz.1,h _ hz.2⟩

variable [DecidableEq V]

theorem PendingMap.removeForDecision_cases (m : PendingMap V) (pick : ℕ) (p : Pending V) :
    m.removeForDecision pick p = (m,none) ∨
    ∃ nonce ∈ m, m.removeForDecision pick p = (m.erase nonce,some nonce) ∧ m.Meant p nonce := by
  rcases Daccord.removeForDecision_cases id m pick p with hnone | ⟨n,v,hlook,heq,hwhy⟩
  · exact Or.inl (by simp [PendingMap.removeForDecision,hnone])
  · have hentry := AList.mem_lookup_iff.mp hlook
    refine Or.inr ⟨n,PendingMap.mem_entries.mpr ⟨v,hentry⟩,?_,hwhy.imp_right fun hv => ⟨hv.1,?_⟩⟩
    · simp [PendingMap.removeForDecision,heq]
    · rwa [← hv.2]

theorem PendingMap.processDecisions_spec (pick : ℕ → ℕ) (m : PendingMap V)
    (ds : List (Decision (Pending V))) :
    m.Processed ds (m.processDecisions pick ds).1 (m.processDecisions pick ds).2 := by
  induction ds generalizing m with
  | nil => exact ⟨fun _ h => h,nofun,.nil,nofun⟩
  | cons d ds ih =>
    rcases m.removeForDecision_cases (pick d.slot) d.value with hr | ⟨nonce,hmem,hr,hmeant⟩
    · have h := ih m
      simp only [PendingMap.processDecisions,hr,Option.map_none,Option.toList_none,List.nil_append]
      refine ⟨h.left,h.gone,h.once,fun x hx => ?_⟩
      obtain ⟨d',hd',hx'⟩ := h.meant x hx
      exact ⟨d',List.mem_cons_of_mem _ hd',hx'⟩
    · have h := ih (m.erase nonce)
      have hleft := fun e he => PendingMap.mem_erase_entries (h.left e he)
      have herased : nonce ∉ m.erase nonce := fun hn => (AList.mem_erase.mp hn).1 rfl
      simp only [PendingMap.processDecisions,hr,Option.map_some,Option.toList_some,
        List.singleton_append]
      refine ⟨hleft,?_,List.pairwise_cons.mpr ⟨fun x hx heq => ?_,h.once⟩,?_⟩
      · rintro x (_ | ⟨_,hx⟩)
        · exact ⟨hmem,fun hn => herased (PendingMap.mem_mono h.left hn)⟩
        · exact ⟨(AList.mem_erase.mp (h.gone x hx).1).2,(h.gone x hx).2⟩
      · have hx' := (h.gone x hx).1
        rw [← heq] at hx'
        exact herased hx'
      · rintro x (_ | ⟨_,hx⟩)
        · exact ⟨d,List.mem_cons_self,rfl,hmeant⟩
        · obtain ⟨d',hd',heq,hm⟩ := h.meant x hx
          exact ⟨d',List.mem_cons_of_mem _ hd',heq,
            hm.mono fun e he => PendingMap.mem_erase_entries he⟩

end

/-! Every call is answered once at most. -/

structure Front.Ok (s : Front N V) : Prop where
  live : ∀ c ∈ s.calls, c.2.nonce ≠ 0
  fresh : s.calls.Pairwise fun c c' => c.2.nonce ≠ c'.2.nonce
  waits : ∀ i, ∀ e ∈ (s.pending i).entries, (i,⟨e.1,e.2⟩) ∈ s.calls
  done : ∀ x ∈ s.answers, x.nonce ∉ s.pending x.node ∧ ∃ v, (x.node,⟨x.nonce,v⟩) ∈ s.calls
  once : s.answers.Pairwise fun x y => x.nonce ≠ y.nonce

section
variable {s s' : Front N V} {l : Fleet.Label (Pending V) N} {i : Fin N}

theorem Front.Ok.init (M : Named N) (env : Env) : (Front.init (V := V) M env).Ok :=
  ⟨nofun,.nil,nofun,nofun,.nil⟩

theorem Front.Ok.caller (h : s.Ok) {c c' : Fin N × Pending V} (hc : c ∈ s.calls) (hc' : c' ∈ s.calls)
    (heq : c.2.nonce = c'.2.nonce) : c = c' :=
  List.inj_on_of_nodup_map (List.pairwise_map.mpr h.fresh) hc hc' heq

theorem Front.Ok.waiting (h : s.Ok) {nonce : ℕ} (hn : nonce ∈ s.pending i) :
    ∃ v, (i,⟨nonce,v⟩) ∈ s.calls := by
  obtain ⟨v,hv⟩ := PendingMap.mem_entries.mp hn
  exact ⟨v,h.waits i _ hv⟩

theorem Front.Ok.shrunk (h : s.Ok) {m : PendingMap V} (hm : ∀ e ∈ m.entries, e ∈ (s.pending i).entries) :
    Front.Ok { s with pending := Function.update s.pending i m } := by
  have hold : ∀ j, ∀ e ∈ (Function.update s.pending i m j).entries, e ∈ (s.pending j).entries :=
    (Function.forall_update_iff s.pending fun j (m : PendingMap V) =>
      ∀ e ∈ m.entries, e ∈ (s.pending j).entries).mpr ⟨hm,fun _ _ _ he => he⟩
  exact { h with
    waits := fun j e he => h.waits j e (hold j e he)
    done := fun x hx => ⟨fun hn => (h.done x hx).1 (PendingMap.mem_mono (hold _) hn),(h.done x hx).2⟩ }

theorem Front.Ok.dropped (h : s.Ok) (i : Fin N) : (s.dropped i).Ok := h.shrunk nofun

theorem Front.Ok.called (h : s.Ok) {p : Pending V} (hlive : p.nonce ≠ 0)
    (hfresh : ∀ c ∈ s.calls, c.2.nonce ≠ p.nonce) : (s.called i p).Ok := by
  have hnodes := Function.forall_update_iff (a := i) (b := (s.pending i).insert p.nonce p.value)
    s.pending
  have hwaits : ∀ j, ∀ e ∈ ((s.called i p).pending j).entries,
      (j,⟨e.1,e.2⟩) ∈ s.calls ++ [(i,p)] := by
    refine (hnodes fun j (m : PendingMap V) => ∀ e ∈ m.entries, (j,⟨e.1,e.2⟩) ∈ s.calls ++ [(i,p)]).mpr
      ⟨fun e he => ?_,fun j _ e he => List.mem_append_left _ (h.waits j e he)⟩
    rw [AList.entries_insert] at he
    rcases List.mem_cons.mp he with rfl | he
    · exact List.mem_append_right _ (List.mem_singleton.mpr rfl)
    · exact List.mem_append_left _ (h.waits i e ((List.kerase_sublist _ _).subset he))
  have hgone : ∀ j, ∀ x ∈ s.answers, x.node = j → x.nonce ∉ (s.called i p).pending j := by
    refine (hnodes fun j (m : PendingMap V) => ∀ x ∈ s.answers, x.node = j → x.nonce ∉ m).mpr
      ⟨fun x hx hi => ?_,fun j _ x hx hj => hj ▸ (h.done x hx).1⟩
    obtain ⟨hgone,v,hv⟩ := h.done x hx
    rw [AList.mem_insert]
    rintro (heq | hn)
    · exact hfresh _ hv heq
    · exact hgone (hi ▸ hn)
  refine ⟨?_,?_,hwaits,fun x hx => ⟨hgone _ x hx rfl,?_⟩,h.once⟩
  · intro c hc
    rcases List.mem_append.mp hc with hc | hc
    · exact h.live c hc
    · rwa [List.mem_singleton.mp hc]
  · refine List.pairwise_append.mpr ⟨h.fresh,List.pairwise_singleton _ _,fun c hc c' hc' => ?_⟩
    rw [List.mem_singleton.mp hc']
    exact hfresh c hc
  · obtain ⟨_,v,hv⟩ := h.done x hx
    exact ⟨v,List.mem_append_left _ hv⟩

theorem Front.Ok.received (h : s.Ok) (hl : s.Live l) : (s.received l).Ok := by
  unfold Front.received
  split
  · obtain ⟨hlive,hfresh⟩ := hl _ ‹_›
    exact h.called hlive hfresh
  · exact h

end

section
variable [DecidableEq V] {M : Named N} {s s' : Front N V} {l : Fleet.Label (Pending V) N} {i : Fin N}

theorem Front.Ok.answered (h : s.Ok) (pick : ℕ → ℕ) (i : Fin N) (t : Turn (Pending V) V)
    (fate : Fate) : (s.answered pick i t fate).Ok := by
  set ds := (fate.handed .pending t).filterMap Handover.answered
  have hp := PendingMap.processDecisions_spec pick (s.pending i) ds
  have hshrunk := h.shrunk hp.left
  set r := (s.pending i).processDecisions pick ds
  have hnew : ∀ x ∈ r.2.map (fun x => (⟨i,x.1,x.2⟩ : Answer N V)),
      x.node = i ∧ x.nonce ∈ s.pending i ∧ x.nonce ∉ r.1 := by
    intro x hx
    obtain ⟨y,hy,rfl⟩ := List.mem_map.mp hx
    exact ⟨rfl,hp.gone y hy⟩
  refine { hshrunk with done := ?_, once := ?_ }
  · intro x hx
    rcases List.mem_append.mp hx with hx | hx
    · exact hshrunk.done x hx
    · obtain ⟨hi,hmem,hgone⟩ := hnew x hx
      change x.nonce ∉ Function.update s.pending i r.1 x.node ∧ _
      rw [hi,Function.update_self]
      exact ⟨hgone,h.waiting hmem⟩
  · refine List.pairwise_append.mpr ⟨h.once,?_,fun x hx y hy heq => ?_⟩
    · rw [List.pairwise_map]
      exact hp.once
    · -- the call was made at one node, which has answered it already
      obtain ⟨hi,hmem,_⟩ := hnew y hy
      obtain ⟨hgone,v,hv⟩ := h.done x hx
      obtain ⟨w,hw⟩ := h.waiting hmem
      have hnode : x.node = i := congrArg Prod.fst (h.caller hv hw heq)
      rw [hnode,heq] at hgone
      exact hgone hmem

theorem Front.Ok.attended (h : s.Ok) (hl : s.Live l) (pick : ℕ → ℕ) : (s.attended l pick).Ok := by
  have hr := h.received hl
  unfold Front.attended
  split
  · exact hr.answered pick _ _ _
  · exact (hr.answered pick _ _ _).dropped _
  · exact hr.dropped _
  · exact hr

end

/-! Where values come from. -/

/-- A value with its origin. The flag says whether this copy has come without
being read from disk; a disk keeps the origin. -/
def Adapter.traced (O : Type) : Adapter (O × Bool) O := ⟨Prod.fst,fun o => (o,false),fun _ => rfl⟩

def shown (x : Pending V × Bool) : Pending V := if x.2 then x.1 else ⟨0,x.1.value⟩

theorem Adapter.traced_pending : (Adapter.traced (Pending V)).Over .pending shown Pending.value := by
  refine ⟨fun x => ?_,fun _ => rfl⟩
  obtain ⟨o,live⟩ := x
  cases live <;> rfl

theorem Adapter.traced_map {O O' : Type} (g : O → O') :
    (Adapter.traced O).Over (.traced O') (Prod.map g id) g := ⟨fun _ => rfl,fun _ => rfl⟩

section
variable {T T' T'' W : Type}

theorem Fleet.Label.map_map (f : T → T') (g : T' → T'') (l : Fleet.Label T N) :
    (l.map f).map g = l.map (g ∘ f) := by
  cases l with
  | act i env input fate => simp only [Fleet.Label.map,Option.map_map]
  | _ => rfl

theorem Fleet.Label.map_id (l : Fleet.Label T N) : l.map id = l := by
  cases l with
  | act i env input fate => simp only [Fleet.Label.map,Option.map_id_fun,id_eq]
  | _ => rfl

theorem Fleet.Label.submitted_map (f : T → T') (l : Fleet.Label T N) :
    (l.map f).submitted = l.submitted.map fun x => (x.1,f x.2) := by
  cases l with
  | act i env input fate => cases input <;> rfl
  | _ => rfl

variable {A : Adapter T W} {M : Named N} {s s' : Fleet N T W} {l : Fleet.Label T N}

theorem Fleet.step_emitted (hs : s.step A M l = some s') : s'.emitted = s.emitted ++
    ((s.turnOf A l).elim [] fun x => ((x.2.2.cut (x.2.1.effects A)).flatMap Effect.emitted).map
      fun d => (x.1,d)) := by
  rcases Fleet.step_cases hs with ⟨i,env,input,rest,fate,flight,hw,rfl⟩ | ⟨i,env,k,rfl,rfl⟩ |
    ⟨pos,rfl,rfl⟩
  · rw [hw.turnOf]
    rfl
  · exact (List.append_nil _).symm
  · exact (List.append_nil _).symm

theorem answered_handovers (ds : List (Decision T)) :
    (handovers ds).filterMap Handover.answered = ds := by
  induction ds with
  | nil => rfl
  | cons d ds ih =>
    change d :: (handovers ds).filterMap Handover.answered = d :: ds
    rw [ih]

/-- Decisions that answer calls have been returned by `take_decisions`. -/
theorem Fate.handed_emitted {t : Turn T W} {fate : Fate} {d : Decision T}
    (h : d ∈ (fate.handed A t).filterMap Handover.answered) :
    d ∈ t.decisions ∧ d ∈ (fate.cut (t.effects A)).flatMap Effect.emitted := by
  have hall : ∀ {d}, d ∈ t.decisions → d ∈ (t.effects A).flatMap Effect.emitted := by
    intro d hd
    exact List.mem_flatMap.mpr ⟨.emit t.decisions,by simp [Turn.effects],hd⟩
  cases fate with
  | completes =>
    rw [Fate.handed,answered_handovers] at h
    exact ⟨h,hall h⟩
  | dies k =>
    have hd : d ∈ t.decisions := by
      rw [← answered_handovers t.decisions]
      exact ((List.take_sublist _ _).filterMap _).subset h
    refine ⟨hd,?_⟩
    have hk : (t.effects A).length ≤ k := by
      by_contra hlt
      rw [Fate.handed,Nat.sub_eq_zero_of_le (by omega),List.take_zero] at h
      cases h
    rw [Fate.cut,List.take_of_length_le hk]
    exact hall hd

end

/-- The origins of all values in `r` have `P`: the same fleet could have been run
with values that carry `P`. -/
def Fleet.Within {O : Type} (P : O → Prop) (r : Fleet N (O × Bool) O) : Prop :=
  ∃ q : Fleet N ({o // P o} × Bool) {o // P o}, q.map (Prod.map Subtype.val id) Subtype.val = r

section
variable {O : Type} {P : O → Prop} {M : Named N} {r r' : Fleet N (O × Bool) O}
  {l : Fleet.Label (O × Bool) N}

theorem Fleet.Within.init (P : O → Prop) (M : Named N) (env : Env) :
    (Fleet.init (.traced O) M env).Within P :=
  ⟨.init (.traced _) M env,Fleet.init_map (Adapter.traced_map _) M env⟩

theorem Fleet.Within.emitted (h : r.Within P) {i : Fin N} {d : Decision (O × Bool)}
    (hd : (i,d) ∈ r.emitted) : P d.value.1 := by
  obtain ⟨q,rfl⟩ := h
  obtain ⟨⟨j,d'⟩,_,heq⟩ := List.mem_map.mp hd
  cases heq
  exact d'.value.1.2

/-- A submission of a value with `P` is one of a value that carries `P`. -/
theorem Fleet.Label.exists_val (h : ∀ x ∈ l.submitted, P x.2.1) :
    ∃ l' : Fleet.Label ({o // P o} × Bool) N, l'.map (Prod.map Subtype.val id) = l := by
  cases l with
  | act i env input fate =>
    cases input with
    | none => exact ⟨.act i env none fate,rfl⟩
    | some v => exact ⟨.act i env (some (⟨v.1,h (i,v) rfl⟩,v.2)) fate,rfl⟩
  | repropose i env fate => exact ⟨.repropose i env fate,rfl⟩
  | deliver pos env fate => exact ⟨.deliver pos env fate,rfl⟩
  | restart i env incarnation => exact ⟨.restart i env incarnation,rfl⟩
  | lose pos => exact ⟨.lose pos,rfl⟩

theorem Fleet.Within.step (h : r.Within P) (hl : ∀ x ∈ l.submitted, P x.2.1)
    (hs : r.step (.traced O) M l = some r') : r'.Within P := by
  obtain ⟨q,rfl⟩ := h
  obtain ⟨l',rfl⟩ := Fleet.Label.exists_val hl
  rw [Fleet.step_map (Adapter.traced_map _)] at hs
  obtain ⟨q',_,hq'⟩ := Option.map_eq_some_iff.mp hs
  exact ⟨q',hq'⟩

end

/-- The run of `s` with the origins of its values: all of them are calls, and the
origin of what answers a call is that call. -/
structure Front.Traced (M : Named N) (s : Front N V)
    (r : Fleet N (Pending V × Bool) (Pending V)) : Prop where
  shows : r.map shown Pending.value = s.fleet
  tallied : ∃ a, (r.map Prod.fst id).Tallied M a
  called : ∀ P : Pending V → Prop, (∀ c ∈ s.calls, P c.2) → r.Within P
  backed : ∀ x ∈ s.answers, ∃ d, (x.node,d) ∈ r.emitted ∧ d.slot = x.decided.slot ∧
    d.value.1 = ⟨x.nonce,x.decided.value⟩

section
variable {M : Named N} {s s' : Front N V} {l : Fleet.Label (Pending V) N}
  {r r' : Fleet N (Pending V × Bool) (Pending V)}

theorem shown_origin (x : Pending V × Bool) :
    x.1 = shown x ∨ (shown x).nonce = 0 ∧ x.1.value = (shown x).value := by
  obtain ⟨o,live⟩ := x
  cases live with
  | true => exact Or.inl rfl
  | false => exact Or.inr ⟨rfl,rfl⟩

theorem Front.Traced.init (M : Named N) (env : Env) :
    (Front.init (V := V) M env).Traced M (.init (.traced _) M env) := by
  refine ⟨Fleet.init_map Adapter.traced_pending M env,⟨.start,?_⟩,fun P _ => .init P M env,nofun⟩
  have hexact := Fleet.init_map (Adapter.traced (Pending V)).over_exact M env
  exact (congrArg (Fleet.Tallied M .start) hexact).mpr (.init M env)

/-- The same step; a value that is submitted is its own origin. -/
def Fleet.Label.live (l : Fleet.Label (Pending V) N) : Fleet.Label (Pending V × Bool) N :=
  l.map fun p => (p,true)

theorem Fleet.Label.live_shown (l : Fleet.Label (Pending V) N) : l.live.map shown = l := by
  rw [Fleet.Label.live,Fleet.Label.map_map]
  exact l.map_id

theorem Front.Traced.lift (h : s.Traced M r) {fleet : Fleet N (Pending V) V}
    (hs : s.fleet.step .pending M l = some fleet) :
    ∃ r', r.step (.traced _) M l.live = some r' ∧ r'.map shown Pending.value = fleet := by
  have hstep := Fleet.step_map (M := M) Adapter.traced_pending r l.live
  rw [l.live_shown,h.shows,hs] at hstep
  exact Option.map_eq_some_iff.mp hstep.symm

theorem Front.Traced.tallied_step (h : s.Traced M r) (hq : s.fleet.Queued l)
    (hc : s.fleet.CountsOnce l) (hr : r.step (.traced _) M l.live = some r') :
    ∃ a, (r'.map Prod.fst id).Tallied M a := by
  obtain ⟨a,ha⟩ := h.tallied
  rw [← h.shows,← l.live_shown,Fleet.queued_map] at hq
  rw [← h.shows,← l.live_shown,Fleet.countsOnce_map] at hc
  have hstep := Fleet.step_map (M := M) (Adapter.traced (Pending V)).over_exact r l.live
  rw [hr] at hstep
  exact ha.step ((r.queued_map l.live).mpr hq) ((r.countsOnce_map l.live).mpr hc) hstep

theorem Front.received_answers : (s.received l).answers = s.answers := by
  unfold Front.received
  split <;> rfl

theorem Front.mem_received {c : Fin N × Pending V} :
    c ∈ (s.received l).calls ↔ c ∈ s.calls ∨ l.submitted = some c := by
  unfold Front.received
  split
  · rename_i i p hsub
    simp only [Front.called,List.mem_append,List.mem_singleton,hsub,Option.some.injEq,eq_comm]
  · simp_all

/-- Step `l` decides something that is meant for the call that `x` answers. -/
def Front.Returns (s : Front N V) (l : Fleet.Label (Pending V) N) (x : Answer N V) : Prop :=
  ∃ t fate d, s.fleet.turnOf .pending l = some (x.node,t,fate) ∧
    d ∈ (fate.handed .pending t).filterMap Handover.answered ∧
    x.decided = ⟨d.slot,d.value.value⟩ ∧ ((s.received l).pending x.node).Meant d.value x.nonce

/-- What a step returns to a call has that call as its origin. -/
theorem Front.Returns.origin {x : Answer N V} (h : s.Returns l x) (hl : s.Unmistaken l)
    {fleet : Fleet N (Pending V) V} (hs : s.fleet.step .pending M l = some fleet)
    (hr : r.map shown Pending.value = fleet)
    (hcalled : r.Within fun o => ∃ c ∈ (s.received l).calls, c.2 = o) :
    ∃ d, (x.node,d) ∈ r.emitted ∧ d.slot = x.decided.slot ∧
      d.value.1 = ⟨x.nonce,x.decided.value⟩ := by
  obtain ⟨t,fate,d,ht,hd,hx,hmeant⟩ := h
  obtain ⟨hdec,hem⟩ := Fate.handed_emitted hd
  have hmem : (x.node,d) ∈ fleet.emitted := by
    rw [Fleet.step_emitted hs,ht]
    exact List.mem_append_right _ (List.mem_map_of_mem hem)
  rw [← hr] at hmem
  obtain ⟨⟨j,d'⟩,hd',heq⟩ := List.mem_map.mp hmem
  cases heq
  obtain ⟨c,hc,hcd⟩ := hcalled.emitted hd'
  refine ⟨d',hd',by rw [hx]; rfl,?_⟩
  rw [hx]
  rcases hmeant with ⟨hnonce,hxn⟩ | ⟨hzero,hentry⟩
  · rcases shown_origin d'.value with hsame | ⟨hz,_⟩
    · rw [hxn]
      exact hsame
    · exact absurd hz hnonce
  · have hvalue : d'.value.1.value = (shown d'.value).value := by
      rcases shown_origin d'.value with hsame | ⟨_,hv⟩
      · exact congrArg Pending.value hsame
      · exact hv
    have hnonce := hl _ ht _ hdec hzero _ hentry rfl c hc (by rw [hcd]; exact hvalue)
    rw [hcd] at hnonce
    calc d'.value.1 = ⟨d'.value.1.nonce,d'.value.1.value⟩ := rfl
      _ = ⟨x.nonce,(shown d'.value).value⟩ := by rw [hnonce,hvalue]

variable [DecidableEq V] {pick : ℕ → ℕ}

theorem Front.attended_calls : (s.attended l pick).calls = (s.received l).calls := by
  unfold Front.attended
  split <;> rfl

theorem Front.mem_answered {i : Fin N} {t : Turn (Pending V) V} {fate : Fate}
    (ht : s.fleet.turnOf .pending l = some (i,t,fate)) {x : Answer N V}
    (hx : x ∈ ((s.received l).answered pick i t fate).answers) : x ∈ s.answers ∨ s.Returns l x := by
  rcases List.mem_append.mp hx with hx | hx
  · exact Or.inl (Front.received_answers ▸ hx)
  · obtain ⟨y,hy,rfl⟩ := List.mem_map.mp hx
    obtain ⟨d,hd,heq,hm⟩ := (PendingMap.processDecisions_spec _ _ _).meant y hy
    exact Or.inr ⟨t,fate,d,ht,hd,heq,hm⟩

theorem Front.mem_attended {x : Answer N V} (hx : x ∈ (s.attended l pick).answers) :
    x ∈ s.answers ∨ s.Returns l x := by
  unfold Front.attended at hx
  split at hx
  · exact Front.mem_answered ‹_› hx
  · exact Front.mem_answered ‹_› hx
  · exact Or.inl (Front.received_answers ▸ hx)
  · exact Or.inl (Front.received_answers ▸ hx)

/-- The conditions on a step: in-order links, live nonces, no member counted twice
by a leader, and no call mistaken for another. -/
structure Front.Careful (s : Front N V) (l : Fleet.Label (Pending V) N × (ℕ → ℕ)) : Prop where
  queued : s.fleet.Queued l.1
  live : s.Live l.1
  counts : s.fleet.CountsOnce l.1
  unmistaken : s.Unmistaken l.1

instance (s : Front N V) (l : Fleet.Label (Pending V) N × (ℕ → ℕ)) : Decidable (s.Careful l) :=
  decidable_of_iff (s.fleet.Queued l.1 ∧ s.Live l.1 ∧ s.fleet.CountsOnce l.1 ∧ s.Unmistaken l.1)
    ⟨fun h => ⟨h.1,h.2.1,h.2.2.1,h.2.2.2⟩,fun h => ⟨h.queued,h.live,h.counts,h.unmistaken⟩⟩

theorem Front.Traced.step (h : s.Traced M r) {l : Fleet.Label (Pending V) N × (ℕ → ℕ)}
    (hl : s.Careful l) (hs : s.step M l = some s') : ∃ r', s'.Traced M r' := by
  obtain ⟨fleet,hfleet,rfl⟩ := Option.map_eq_some_iff.mp hs
  obtain ⟨r',hr',hmap⟩ := h.lift hfleet
  have hcalled : ∀ P : Pending V → Prop, (∀ c ∈ (s.received l.1).calls, P c.2) → r'.Within P := by
    intro P hP
    refine (h.called P fun c hc => hP c (Front.mem_received.mpr (Or.inl hc))).step (fun x hx => ?_) hr'
    rw [Fleet.Label.live,Fleet.Label.submitted_map] at hx
    obtain ⟨y,hy,rfl⟩ := Option.map_eq_some_iff.mp hx
    exact hP y (Front.mem_received.mpr (Or.inr hy))
  have hcalls : ({ s.attended l.1 l.2 with fleet := fleet } : Front N V).calls =
      (s.received l.1).calls := Front.attended_calls
  refine ⟨r',hmap,h.tallied_step hl.queued hl.counts hr',fun P hP => hcalled P (hcalls ▸ hP),
    fun x hx => ?_⟩
  rcases Front.mem_attended hx with hx | hx
  · obtain ⟨d,hd,hx'⟩ := h.backed x hx
    refine ⟨d,?_,hx'⟩
    rw [Fleet.step_emitted hr']
    exact List.mem_append_left _ hd
  · exact hx.origin hl.unmistaken hfleet hmap (hcalled _ fun c hc => ⟨c,hc,rfl⟩)

theorem Front.traced_reaches {env : Env}
    (h : Runs.Reaches (Front.step M) Front.Careful (.init M env) s) : s.Ok ∧ ∃ r, s.Traced M r := by
  refine h.invariant (fun s => s.Ok ∧ ∃ r, s.Traced M r) ⟨.init M env,_,.init M env⟩ ?_
  rintro s l s' _ ⟨hok,r,hr⟩ hl hs
  refine ⟨?_,hr.step hl hs⟩
  obtain ⟨fleet,_,rfl⟩ := Option.map_eq_some_iff.mp hs
  exact { hok.attended hl.live l.2 with }

/-- In every run whose steps are careful, no two calls return the same slot, and
each returns the value it was made with. -/
theorem slots_unshared (M : Named N) (env : Env) (s : Front N V)
    (h : Runs.Reaches (Front.step M) Front.Careful (.init M env) s) :
    s.answers.Pairwise (fun x y => x.decided.slot ≠ y.decided.slot) ∧
    ∀ x ∈ s.answers, (x.node,⟨x.nonce,x.decided.value⟩) ∈ s.calls := by
  obtain ⟨hok,r,hr⟩ := Front.traced_reaches h
  obtain ⟨a,ha⟩ := hr.tallied
  refine ⟨?_,fun x hx => ?_⟩
  · refine hok.once.imp_of_mem fun {x y} hx hy hne hslot => hne ?_
    obtain ⟨d,hd,hds,hdo⟩ := hr.backed x hx
    obtain ⟨d',hd',hds',hdo'⟩ := hr.backed y hy
    have hdec := ha.ok.emitted trivial _ (List.mem_map_of_mem hd)
    have hdec' := ha.ok.emitted trivial _ (List.mem_map_of_mem hd')
    have hsame := hdec.agree ha.ok.sound trivial hdec' (hds.trans (hslot.trans hds'.symm))
    exact congrArg Pending.nonce (hdo.symm.trans (hsame.trans hdo'))
  · obtain ⟨d,hd,_,hdo⟩ := hr.backed x hx
    obtain ⟨c,hc,hcd⟩ := (hr.called (fun o => ∃ c ∈ s.calls, c.2 = o) fun c hc => ⟨c,hc,rfl⟩).emitted hd
    obtain ⟨_,v,hv⟩ := hok.done x hx
    -- the origin is the call with this nonce
    have hcall : c.2 = ⟨x.nonce,x.decided.value⟩ := hcd.trans hdo
    have hsame := hok.caller hc hv (by rw [hcall])
    rw [hsame] at hcall
    rw [← hcall]
    exact hv

def triplet : Named 3 where
  members := trio
  names := by decide

/-- Nobody has to choose between calls with the same value. -/
def eventAt (now : ℕ) : (Env → Fleet.Label (Pending ℕ) 3) → Fleet.Label (Pending ℕ) 3 × (ℕ → ℕ) :=
  fun l => (l ⟨now,0⟩,fun _ => 0)

/-- A call at `a`, which `b` has elected; `b` stores its value and acknowledges it. -/
def callStored : List (Fleet.Label (Pending ℕ) 3 × (ℕ → ℕ)) :=
  [eventAt 1000 (.act 0 · none .completes),eventAt 1001 (.deliver 0 · .completes),
    eventAt 1002 (.deliver 1 · .completes),eventAt 1003 (.act 0 · (some ⟨1,7⟩) .completes),
    eventAt 1004 (.deliver 1 · .completes),eventAt 1005 (.deliver 2 · .completes)]

/-- `a` answers this call and one more with the same value. -/
def bothAnswered : Front 3 ℕ :=
  Runs.after (Front.step triplet) Front.Careful (.init triplet ⟨0,0⟩)
    (callStored ++ [eventAt 1006 (.deliver 3 · .completes),eventAt 1007 (.deliver 3 · .completes),
      eventAt 1008 (.act 0 · (some ⟨2,7⟩) .completes),eventAt 1009 (.deliver 3 · .completes),
      eventAt 1010 (.deliver 4 · .completes)]) (by decide +kernel)

theorem slots_unshared_bothAnswered :
    bothAnswered.answers = [⟨0,1,⟨0,7⟩⟩,⟨0,2,⟨1,7⟩⟩] ∧
    bothAnswered.answers.Pairwise (fun x y => x.decided.slot ≠ y.decided.slot) :=
  ⟨by decide +kernel,
    (slots_unshared triplet ⟨0,0⟩ bothAnswered (Runs.after_reaches .start (by decide +kernel))).1⟩

/-- `b` starts again and takes a call with the same value before it learns that
the stored entry is committed. -/
def bothAtOne : Front 3 ℕ :=
  Runs.after (Front.step triplet)
    (fun s l => s.fleet.Queued l.1 ∧ s.Live l.1 ∧ s.fleet.CountsOnce l.1) (.init triplet ⟨0,0⟩)
    (callStored ++ [eventAt 1006 (.restart 1 · 2),eventAt 1007 (.deliver 3 · .completes),
      eventAt 1008 (.deliver 3 · .completes),eventAt 1009 (.act 1 · (some ⟨2,7⟩) .completes),
      eventAt 1100 (.act 0 · none .completes),eventAt 1101 (.deliver 3 · .completes)])
    (by decide +kernel)

/-- The calls with nonces 1 and 2 both return slot 0. -/
theorem slot_shared :
    Runs.Reaches (Front.step triplet)
      (fun s l => s.fleet.Queued l.1 ∧ s.Live l.1 ∧ s.fleet.CountsOnce l.1) (.init triplet ⟨0,0⟩)
      bothAtOne ∧
    bothAtOne.calls = [(0,⟨1,7⟩),(1,⟨2,7⟩)] ∧
    bothAtOne.answers = [⟨0,1,⟨0,7⟩⟩,⟨1,2,⟨0,7⟩⟩] :=
  ⟨Runs.after_reaches .start (by decide +kernel),by decide +kernel,by decide +kernel⟩

end
end Raft
end Daccord
