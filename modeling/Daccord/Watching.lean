import Daccord.ClientWatch
import Daccord.DeploymentRuns

/-! A client that watches a deployed cluster. Each member's `collect_decisions` appends
what its decision receiver gets to the `DecisionLog` that the watches read; the client
follows one member after the other. -/
namespace Daccord

namespace Service

variable {V : Type}

def Appends (P : Decision V → Prop) (_ : System V) : Event V → Prop
  | .served (.append x) => x.slot < maxSlot ∧ P x
  | _ => True

structure System.From (P : Decision V → Prop) (s : System V) : Prop where
  yielded : ∀ x ∈ s.client.yielded, P x
  entries : ∀ t ∈ s.session, ∀ x ∈ t.server.log.entries, P x

section
variable {P : Decision V → Prop} {agreed : ℕ → V} {start : ℕ} {s s' : System V} {e : Event V}

theorem System.From.apart (h : s.From P) {c : Client V} (hc : c.yielded = s.client.yielded) :
    System.From P ⟨c,none⟩ := by
  refine ⟨?_,?_⟩
  · rw [hc]
    exact h.yielded
  · intro t ht
    cases ht

theorem System.From.step (h : s.From P) (hok : s.Ok agreed start) (he : Appends P s e)
    (hs : s.step e = some s') : s'.From P := by
  unfold System.step at hs
  split at hs
  · cases hs
  split at hs
  · cases hs
    refine ⟨h.yielded,?_⟩
    intro t ht x hx
    cases ht
    cases hx
  · rename_i error hsession
    cases hs
    have happart := h.apart (s.client.refused_facts error).1
    rwa [← hsession] at happart
  · rename_i t l hsession
    obtain ⟨server,hserver,rfl⟩ := Option.map_eq_some_iff.mp hs
    refine ⟨h.yielded,?_⟩
    intro t' ht x hx
    cases ht
    rcases State.step_entries hserver hx with hx | ⟨rfl,_⟩
    · exact h.entries t hsession x hx
    · exact he.2
  · rename_i t hsession
    obtain ⟨d,hd,rfl⟩ := Option.map_eq_some_iff.mp hs
    -- what comes through the stream is in the server's log
    obtain ⟨first,hsound,_,_⟩ := hok.session t hsession
    have hlogged := (hsound.watcher.yielded _ _ hd).1
    refine ⟨?_,?_⟩
    · intro x hx
      rcases List.mem_append.mp hx with hx | hx
      · exact h.yielded x hx
      · rw [List.mem_singleton.mp hx]
        exact h.entries t hsession d hlogged
    · intro t' ht
      cases ht
      exact h.entries t hsession
  · rename_i t code hsession
    cases hs
    exact h.apart (s.client.status_facts code).1
  · cases hs
    exact h.apart rfl
  · cases hs

/-- If `P` leaves one value to each slot, a client sees slot after slot, and nothing
without `P`. -/
theorem System.yielded_from (hP : ∀ x, P x → x.value = agreed x.slot)
    (h : Runs.Reaches System.step (Appends P) (.init start) s) :
    (∀ x ∈ s.client.yielded, P x) ∧
      ∀ k x, s.client.yielded[k]? = some x → x.slot = start + k := by
  have hrun : ∀ {s}, Runs.Reaches System.step (Appends P) (.init start) s →
      s.Ok agreed start := by
    intro s hs
    have hagreed : Runs.Reaches System.step (Agreed agreed) (.init start) s := by
      refine hs.weaken fun s e he => ?_
      unfold Agreed
      split
      · exact ⟨he.1,fun _ _ _ => hP _ he.2⟩
      · trivial
    exact hagreed.invariant (System.Ok agreed start) .init fun _ _ _ _ hok he hs => hok.step he hs
  have hfrom : s.From P := by
    refine h.invariant (System.From P) ⟨?_,?_⟩ fun s e s' hr hs he hstep => hs.step (hrun hr) he hstep
    · exact List.forall_mem_nil _
    · intro t ht
      cases ht
  exact ⟨hfrom.yielded,fun k x hx => ((hrun h).yielded k x hx).1⟩

end

end Service

namespace EventLoop

open Raft (Named)

variable {N : ℕ} {B V : Type}

/-- Some node's decision receiver has got `x`. -/
def Deployment.Delivered (d : Deployment N B V) (x : Decision V) : Prop :=
  (∃ i, x ∈ (d.worlds i).desk.taken) ∨ ∃ old ∈ d.past, x ∈ old.2.desk.taken

instance [DecidableEq V] (d : Deployment N B V) (x : Decision V) : Decidable (d.Delivered x) :=
  inferInstanceAs (Decidable ((∃ i, x ∈ (d.worlds i).desk.taken) ∨ ∃ old ∈ d.past, x ∈ old.2.desk.taken))

structure Watched (N : ℕ) (B V : Type) where
  deployment : Deployment N B V
  system : Service.System V

inductive Watched.Event (N : ℕ) (B V : Type)
  | member (e : Deployment.Event N B V)
  | watch (e : Service.Event V)

section
variable [DecidableEq V]

def Watched.step (F : WireFormat B V) (M : Named N) (s : Watched N B V) :
    Watched.Event N B V → Option (Watched N B V)
  | .member e => (s.deployment.step F M e).map fun d => { s with deployment := d }
  | .watch e => (s.system.step e).map fun t => { s with system := t }

omit [DecidableEq V] in
/-- No step counts a member twice, and `collect_decisions` is all that appends to a log. -/
def Watched.Collects (F : WireFormat B V) (s : Watched N B V) : Watched.Event N B V → Prop
  | .member e => s.deployment.CountsOnce F e
  | .watch (.served (.append x)) => x.slot < Service.maxSlot ∧ s.deployment.Delivered x
  | .watch _ => True

instance (F : WireFormat B V) (s : Watched N B V) :
    (e : Watched.Event N B V) → Decidable (s.Collects F e)
  | .member e => inferInstanceAs (Decidable (s.deployment.CountsOnce F e))
  | .watch (.served (.append x)) =>
    inferInstanceAs (Decidable (x.slot < Service.maxSlot ∧ s.deployment.Delivered x))
  | .watch (.served (.send _)) | .watch (.served .subscribe) | .watch (.served .snapshot)
  | .watch (.served .poll) | .watch (.served .close) | .watch (.opened _) | .watch (.refused _)
  | .watch .message | .watch (.status _) | .watch .closed => isTrue trivial

omit [DecidableEq V] in
theorem Deployment.Delivered.goOn {M : Named N} {d : Deployment N B V} {x : Decision V} {i : Fin N}
    {w : World (ProtocolImpl V) B V} (h : d.Delivered x) (hw : (d.worlds i).desk.taken <+: w.desk.taken) :
    (d.goOn M i w).Delivered x := by
  rcases h with ⟨k,hk⟩ | hpast
  · refine Or.inl ⟨k,?_⟩
    by_cases hki : k = i
    · subst hki
      simpa [Deployment.goOn] using hw.subset hk
    · simpa [Deployment.goOn,hki] using hk
  · exact Or.inr hpast

theorem Deployment.Delivered.step {F : WireFormat B V} {M : Named N} {d d' : Deployment N B V}
    {e : Deployment.Event N B V} {x : Decision V} (h : d.Delivered x)
    (hs : d.step F M e = some d') : d'.Delivered x := by
  cases e with
  | node i a =>
    simp only [Deployment.step] at hs
    split at hs
    · cases hs
    · obtain ⟨w,hw,rfl⟩ := Option.map_eq_some_iff.mp hs
      exact h.goOn (World.step_feeds hw).taken
  | deliver src dst envs chance =>
    simp only [Deployment.step] at hs
    split at hs
    · cases hs
    · rename_i bytes rest _
      obtain ⟨w,hw,rfl⟩ := Option.map_eq_some_iff.mp hs
      have hsame : { d with links := relink d.links src dst rest }.Delivered x := h
      exact hsame.goOn (World.step_feeds hw).taken
  | lose src dst pos =>
    cases hs
    exact h
  | restart i incarnation peers now =>
    simp only [Deployment.step] at hs
    split at hs
    · split at hs
      · cases hs
        rcases h with ⟨k,hk⟩ | ⟨old,hold,hx⟩
        · by_cases hki : k = i
          · subst hki
            exact Or.inr ⟨(k,d.worlds k),by simp,hk⟩
          · exact Or.inl ⟨k,by simpa [hki] using hk⟩
        · exact Or.inr ⟨old,List.mem_append_left _ hold,hx⟩
      · cases hs
    · cases hs

omit [DecidableEq V] in
theorem Deployment.Delivered.shown {d : Deployment N B V} {x : Decision V} (h : d.Delivered x) :
    ∃ i w, d.Life i w ∧ x ∈ w.shown := by
  rcases h with ⟨i,hx⟩ | ⟨⟨i,w⟩,hold,hx⟩
  · exact ⟨i,d.worlds i,Or.inl rfl,List.mem_append_right _ (List.mem_append_left _ hx)⟩
  · exact ⟨i,w,Or.inr hold,List.mem_append_right _ (List.mem_append_left _ hx)⟩

/-- The members go on by themselves, and the client sees only what had been delivered by
the end. -/
theorem Watched.apart {F : WireFormat B V} {M : Named N} {d₀ : Deployment N B V}
    {t₀ : Service.System V} {s : Watched N B V}
    (h : Runs.Reaches (Watched.step F M) (Watched.Collects F) ⟨d₀,t₀⟩ s) :
    Runs.Reaches (Deployment.step F M) (Deployment.CountsOnce F) d₀ s.deployment ∧
      ∀ P : Decision V → Prop, (∀ x, s.deployment.Delivered x → P x) →
        Runs.Reaches Service.System.step (Service.Appends P) t₀ s.system := by
  induction h with
  | start => exact ⟨.start,fun _ _ => .start⟩
  | @next s s' l _ hl hs ih =>
    cases l with
    | member e =>
      obtain ⟨d,hd,rfl⟩ := Option.map_eq_some_iff.mp hs
      exact ⟨.next ih.1 hl hd,fun P hP => ih.2 P fun x hx => hP x (hx.step hd)⟩
    | watch e =>
      obtain ⟨t,ht,rfl⟩ := Option.map_eq_some_iff.mp hs
      refine ⟨ih.1,fun P hP => .next (ih.2 P hP) ?_ ht⟩
      unfold Service.Appends
      split
      · exact ⟨hl.1,hP _ hl.2⟩
      · trivial

/-- A client that watches the cluster, through whatever members and reconnects, gets slot
after slot; each decision it gets is stored by a majority, and nobody else is shown
another value for its slot. -/
theorem watchers_see_the_log (F : WireFormat B V) (hF : F.Faithful) (M : Named N)
    (peers : Fin N → List NodeId) (hpeers : ∀ i, Peers M i (peers i)) (env : Env) (start : ℕ)
    (s : Watched N B V)
    (h : Runs.Reaches (Watched.step F M) (Watched.Collects F) ⟨.init M peers env,.init start⟩ s)
    (k : ℕ) (x : Decision V) (hx : s.system.client.yielded[k]? = some x) :
    x.slot = start + k ∧ s.deployment.Stored x ∧
      ∀ i w, s.deployment.Life i w → ∀ y ∈ w.shown, x.slot = y.slot → x.value = y.value := by
  classical
  obtain ⟨hmembers,hclient⟩ := Watched.apart h
  obtain ⟨f,hsail,hd⟩ := Deployment.follows hF hpeers hmembers
  have hagree : ∀ {y z : Decision V} {i w}, s.deployment.Delivered y → s.deployment.Life i w →
      z ∈ w.shown → y.slot = z.slot → y.value = z.value := by
    intro y z i w hy hw hz hslot
    obtain ⟨j,w',hw',hy'⟩ := hy.shown
    exact hd.agree hsail hw' hw hy' hz hslot
  -- the value that was delivered for a slot
  let agreed : ℕ → V := fun slot =>
    if hex : ∃ y, s.deployment.Delivered y ∧ y.slot = slot then hex.choose.value else x.value
  have hagreed : ∀ y, s.deployment.Delivered y → y.value = agreed y.slot := by
    intro y hy
    have hex : ∃ z, s.deployment.Delivered z ∧ z.slot = y.slot := ⟨y,hy,rfl⟩
    obtain ⟨i,w,hw,hz⟩ := hex.choose_spec.1.shown
    simp only [agreed,dif_pos hex]
    exact hagree hy hw hz hex.choose_spec.2.symm
  obtain ⟨hfrom,hslots⟩ := Service.System.yielded_from hagreed (hclient _ fun _ hy => hy)
  have hdelivered := hfrom x (List.mem_of_getElem? hx)
  obtain ⟨i,w,hw,hshown⟩ := hdelivered.shown
  exact ⟨hslots k x hx,hd.stored hsail hw hshown,fun j w' hw' y hy hslot => hagree hdelivered hw' hy hslot⟩

end

/-- The receiver of `b` takes the decision, its server appends it and a watch hands it on. -/
def followed : Watched 3 (NodeId × WireVariant (Pending ℕ)) ℕ :=
  Runs.after (Watched.step plain threesome) (Watched.Collects plain)
    ⟨.init threesome theOthers ⟨0,0⟩,.init 0⟩
    ((lifeEvents 2).map .member ++ [.member (.node 1 .takeDecision),.watch (.opened 8),
      .watch (.served (.append ⟨0,7⟩)),.watch (.served .subscribe),.watch (.served .snapshot),
      .watch (.served .poll),.watch .message]) (by decide +kernel)

theorem watchers_see_the_log_followed :
    followed.system.client.yielded[0]? = some ⟨0,7⟩ ∧ followed.deployment.Stored ⟨0,7⟩ ∧
    ∀ i w, followed.deployment.Life i w → ∀ y ∈ w.shown, 0 = y.slot → 7 = y.value := by
  have hyielded : followed.system.client.yielded[0]? = some ⟨0,7⟩ := by decide +kernel
  obtain ⟨_,hstored,hagree⟩ := watchers_see_the_log plain plain_faithful threesome theOthers
    (by decide) ⟨0,0⟩ 0 followed (Runs.after_reaches .start (by decide +kernel)) 0 ⟨0,7⟩ hyielded
  exact ⟨hyielded,hstored,hagree⟩

end EventLoop

end Daccord
