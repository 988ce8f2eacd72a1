import Daccord.EventLoop

/-! Whole runs of the event loop: every call is accounted for, and what becomes of the
decisions. -/
namespace Daccord
namespace EventLoop

variable {P E B M V : Type}

theorem World.looping_iff (w : World P B V) :
    w.looping = true ↔ w.started = true ∧ w.exit = none := by
  rw [World.looping,Bool.and_eq_true_iff,Option.isNone_iff_eq_none]

theorem World.running (w : World P B V) (h : w.looping = true) : w.exit = none :=
  ((World.looping_iff w).mp h).2

inductive World.Moves [DecidableEq V] (G : Engine P E B M V) (C : Setup) (w : World P B V) :
    Action E B V → World P B V → Prop
  | call (nonce : ℕ) (value : V) (hh : 0 < w.handles) :
      Moves G C w (.call nonce value) (w.propose ⟨nonce,value⟩)
  | clone (hh : 0 < w.handles) : Moves G C w .clone { w with handles := w.handles + 1 }
  | dropHandle (hh : 0 < w.handles) : Moves G C w .dropHandle { w with handles := w.handles - 1 }
  | run (env : E) (p : P) (hstart : w.started = false) (hrun : w.exit = none)
      (hp : G.recover env w.protocol = (p,none)) :
      Moves G C w (.run env) { w with
        protocol := p
        started := true
        status := { w with protocol := p, started := true }.computeState G C }
  | unloaded (env : E) (p : P) (e : StorageError) (hstart : w.started = false)
      (hrun : w.exit = none) (hp : G.recover env w.protocol = (p,some e)) :
      Moves G C w (.run env) ({ w with protocol := p, started := true }.stop (.failed (.storage e)))
  | submission (env : E) (chance : Chance) (s : Submission V) (queue : List (Submission V))
      (hl : w.looping = true) (hq : w.queue = s :: queue) :
      Moves G C w (.submission env chance)
        (.carryOn ({ w with queue := queue }.handleSubmission G C env chance s))
  | shutdown (env : E) (chance : Chance) (hl : w.looping = true) (hq : w.queue = [])
      (hzero : w.handles = 0) :
      Moves G C w (.submission env chance) (w.stop .finished)
  | receive (envs : ℕ → E) (chance : Chance) (data : B) (hl : w.looping = true) :
      Moves G C w (.receive (some data) envs chance) (.carryOn (w.handleIncomingBytes G C envs chance data))
  | noQuorum (envs : ℕ → E) (chance : Chance) (hl : w.looping = true) :
      Moves G C w (.receive none envs chance) (w.stop (.failed .noQuorum))
  | disconnected (envs : ℕ → E) (chance : Chance) :
      Moves G C w (.receive none envs chance) { w with receiverAlive := false }
  | tick (env : E) (chance : Chance) (hl : w.looping = true) :
      Moves G C w (.tick env chance) (.carryOn (w.handleRetries G C env chance))
  | took : Moves G C w .takeDecision { w with desk := w.desk.take 1 }
  | deaf : Moves G C w .dropReceiver { w with desk := { w.desk with listening := false, channel := [] } }
  | dropNode (hrun : w.exit = none) : Moves G C w .dropNode (w.stop .dropped)

theorem World.step_moves [DecidableEq V] {G : Engine P E B M V} {C : Setup} {w w' : World P B V}
    {a : Action E B V} (hs : w.step G C a = some w') : World.Moves G C w a w' := by
  cases a with
  | call nonce value =>
    simp only [World.step] at hs
    split at hs
    · rename_i hcall
      cases hs
      exact .call _ _ hcall.1
    · cases hs
  | clone =>
    simp only [World.step] at hs
    split at hs
    · rename_i hh
      cases hs
      exact .clone hh
    · cases hs
  | dropHandle =>
    simp only [World.step] at hs
    split at hs
    · rename_i hh
      cases hs
      exact .dropHandle hh
    · cases hs
  | run env =>
    simp only [World.step] at hs
    split at hs
    · cases hs
    · rename_i hfresh
      have hstart : w.started = false := by
        simpa using fun he : w.started = true => hfresh (Or.inl he)
      have hrun : w.exit = none := by
        simpa using fun he : w.exit.isSome = true => hfresh (Or.inr he)
      split at hs
      · rename_i p hp
        cases hs
        exact .run env p hstart hrun hp
      · rename_i p e hp
        cases hs
        exact .unloaded env p e hstart hrun hp
  | submission env chance =>
    simp only [World.step] at hs
    split at hs
    · rename_i hl
      split at hs
      · rename_i s queue hq
        cases hs
        exact .submission env chance s queue hl hq
      · rename_i hq
        split at hs
        · rename_i hzero
          cases hs
          exact .shutdown env chance hl hq hzero
        · cases hs
    · cases hs
  | receive data envs chance =>
    simp only [World.step] at hs
    split at hs
    · rename_i hl
      have hl := (Bool.and_eq_true_iff.mp hl).1
      split at hs
      · cases hs
        exact .receive envs chance _ hl
      · split at hs
        · cases hs
          exact .noQuorum envs chance hl
        · cases hs
          exact .disconnected envs chance
    · cases hs
  | tick env chance =>
    simp only [World.step] at hs
    split at hs
    · rename_i hl
      cases hs
      exact .tick env chance hl
    · cases hs
  | takeDecision =>
    simp only [World.step] at hs
    split at hs
    · cases hs
      exact .took
    · cases hs
  | dropReceiver =>
    cases hs
    exact .deaf
  | dropNode =>
    simp only [World.step] at hs
    split at hs
    · rename_i hnone
      cases hs
      exact .dropNode (by simpa using hnone)
    · cases hs

/-- Between `w` and `w'` decisions were processed. -/
structure Served [DecidableEq V] (chance : Chance) (w w' : World P B V) : Prop where
  desk : ∃ xs, w'.desk = w.desk.processDecisions chance xs
  queue : w'.queue = w.queue
  handles : w'.handles = w.handles
  started : w'.started = w.started
  exit : w'.exit = w.exit
  calls : w'.calls = w.calls

section
variable [DecidableEq V] {G : Engine P E B M V} {C : Setup} {chance : Chance}
  {w w' w'' : World P B V}

theorem Served.same (p : P) (status : NodeState) (sent : List (NodeId × B)) :
    Served chance w { w with protocol := p, status := status, sent := sent } :=
  ⟨⟨[],rfl⟩,rfl,rfl,rfl,rfl,rfl⟩

theorem Served.trans (h : Served chance w w') (h' : Served chance w' w'') : Served chance w w'' := by
  obtain ⟨xs,hxs⟩ := h.desk
  obtain ⟨ys,hys⟩ := h'.desk
  refine ⟨⟨xs ++ ys,?_⟩,h'.queue.trans h.queue,h'.handles.trans h.handles,
    h'.started.trans h.started,h'.exit.trans h.exit,h'.calls.trans h.calls⟩
  rw [hys,hxs,Desk.processDecisions,Desk.processDecisions,Desk.processDecisions,List.foldl_append]

theorem World.finish_served (G : Engine P E B M V) (C : Setup) (env : E) (chance : Chance)
    (w : World P B V) (r : P × List (Outgoing M)) : Served chance w (w.finish G C env chance r).1 := by
  unfold World.finish
  split
  · exact .same _ _ _
  · simp only
    split
    · exact .same _ _ _
    · split
      · exact .same _ _ _
      · exact ⟨⟨_,rfl⟩,rfl,rfl,rfl,rfl,rfl⟩

theorem Served.publishState {r : World P B V × Option Stop} (h : Served chance w r.1) :
    Served chance w (World.publishState G C r).1 := by
  obtain ⟨w',stop⟩ := r
  cases stop with
  | none => exact h.trans (.same _ _ _)
  | some stop => exact h

theorem World.reproposeLost_served (G : Engine P E B M V) (C : Setup) (envs : ℕ → E) (chance : Chance)
    (lost : List (Pending V)) (k : ℕ) (w : World P B V) :
    Served chance w (w.reproposeLost G C envs chance k lost).1 := by
  induction lost generalizing k w with
  | nil => exact .same _ _ _
  | cons value lost ih =>
    have hround := w.finish_served G C (envs k) chance
      (G.propose (envs k) w.protocol value)
    unfold World.reproposeLost
    split
    · rename_i heq
      rw [heq] at hround
      exact hround
    · rename_i heq
      rw [heq] at hround
      exact hround.trans (ih (k + 1) _)

theorem World.handleMessage_served (G : Engine P E B M V) (C : Setup) (envs : ℕ → E)
    (chance : Chance) (w : World P B V) (sender : NodeId) (msg : M) :
    Served chance w (w.handleMessage G C envs chance sender msg).1 := by
  have hround := w.finish_served G C (envs 0) chance
    (G.handleWireMessage (envs 0) w.protocol sender msg)
  unfold World.handleMessage
  split
  · rename_i heq
    rw [heq] at hround
    exact hround
  · rename_i w1 heq
    rw [heq] at hround
    exact (hround.trans (.same _ _ _)).trans (World.reproposeLost_served G C envs chance _ 1 _)

theorem World.handleIncomingBytes_served (G : Engine P E B M V) (C : Setup) (envs : ℕ → E)
    (chance : Chance) (w : World P B V) (data : B) :
    Served chance w (w.handleIncomingBytes G C envs chance data).1 := by
  unfold World.handleIncomingBytes
  split
  · exact .same _ _ _
  · exact (World.handleMessage_served G C envs chance w _ _).publishState

def World.ids (w : World P B V) : List ℕ := w.desk.ids ++ w.queue.map Submission.completion

structure World.Ok (w : World P B V) : Prop where
  desk : w.desk.Ok w.calls
  accounted : w.ids.Perm (List.range w.calls.length)
  queued : ∀ s ∈ w.queue, w.calls[s.completion]? = some s.pending
  stopped : w.exit.isSome → w.queue = [] ∧ w.desk.pending = ∅

/-- Where a call is as long as nothing was cancelled in the queue. -/
def World.Attended (w : World P B V) (id : ℕ) : Prop :=
  id ∈ w.desk.entered ∨ (id,.error .channelFull) ∈ w.desk.answers

structure World.Patient (w : World P B V) : Prop where
  running : w.exit = none → ∀ id < w.calls.length,
    w.Attended id ∨ id ∈ w.queue.map Submission.completion
  finished : w.exit = some .finished → w.handles = 0 ∧ ∀ id < w.calls.length, w.Attended id

theorem Desk.Ok.processDecisions {calls : List (Pending V)} {d : Desk V} (h : d.Ok calls)
    (xs : List (Decision (Pending V))) : (d.processDecisions chance xs).Ok calls := by
  induction xs generalizing d with
  | nil => exact h
  | cons x xs ih => exact ih (h.decided chance x)

theorem Desk.ids_processDecisions (chance : Chance) (xs : List (Decision (Pending V))) (d : Desk V) :
    (d.processDecisions chance xs).ids.Perm d.ids := by
  induction xs generalizing d with
  | nil => exact List.Perm.refl _
  | cons x xs ih => exact (ih (d.decided chance x)).trans (d.ids_decided chance x)

/-- Processing decisions touches neither the calls entered nor earlier answers. -/
theorem Desk.processDecisions_keeps (chance : Chance) (xs : List (Decision (Pending V))) (d : Desk V) :
    (d.processDecisions chance xs).entered = d.entered ∧
      (∀ a ∈ d.answers, a ∈ (d.processDecisions chance xs).answers) ∧
      (d.processDecisions chance xs).listening = d.listening ∧
      (d.processDecisions chance xs).drained = d.drained ++ xs ∧
      d.taken <+: (d.processDecisions chance xs).taken := by
  induction xs generalizing d with
  | nil => simp [Desk.processDecisions]
  | cons x xs ih =>
    obtain ⟨he,ha,hl,hd,ht⟩ := ih (d.decided chance x)
    refine ⟨he,fun a hmem => ha a (List.mem_append_left _ hmem),hl,?_,?_⟩
    · rw [Desk.processDecisions,List.foldl_cons]
      exact hd.trans (by simp [Desk.decided,Desk.take])
    · exact (List.prefix_append _ _).trans ht

theorem Served.ok (h : Served chance w w') (hw : w.Ok) (hrun : w.exit = none) : w'.Ok := by
  obtain ⟨xs,hxs⟩ := h.desk
  refine ⟨?_,?_,?_,fun he => ?_⟩
  · rw [hxs,h.calls]
    exact hw.desk.processDecisions xs
  · rw [World.ids,hxs,h.queue,h.calls]
    exact ((Desk.ids_processDecisions chance xs w.desk).append_right _).trans hw.accounted
  · rw [h.queue,h.calls]
    exact hw.queued
  · rw [h.exit,hrun] at he
    cases he

theorem Served.patient (h : Served chance w w') (hw : w.Patient) : w'.Patient := by
  obtain ⟨xs,hxs⟩ := h.desk
  have hkeeps := Desk.processDecisions_keeps chance xs w.desk
  have hattended : ∀ id, w.Attended id → w'.Attended id := by
    intro id hid
    rw [World.Attended,hxs,hkeeps.1]
    exact hid.imp_right fun ha => hkeeps.2.1 _ ha
  refine ⟨fun hrun id hid => ?_,fun hfin => ?_⟩
  · rw [h.queue]
    exact (hw.running (h.exit ▸ hrun) id (h.calls ▸ hid)).imp_left (hattended id)
  · obtain ⟨hhandles,hall⟩ := hw.finished (h.exit ▸ hfin)
    exact ⟨h.handles.trans hhandles,fun id hid => hattended id (hall id (h.calls ▸ hid))⟩

omit [DecidableEq V] in
theorem World.Ok.stop (h : w.Ok) (e : Exit) : (w.stop e).Ok := by
  have hcancel := h.desk.cancelAll.refuse (w.queue.map fun s =>
      (s.completion,(.error .cancelled : Answer V))) (by
    intro a ha
    obtain ⟨s,_,rfl⟩ := List.mem_map.mp ha
    rfl)
  refine ⟨hcancel,?_,List.forall_mem_nil _,fun _ => ⟨rfl,rfl⟩⟩
  refine List.Perm.trans (List.Perm.of_eq ?_) h.accounted
  simp [World.ids,Desk.ids,World.stop,Desk.cancelAll,PendingMap.completions,Function.comp_def]

omit [DecidableEq V] in
theorem World.stop_attended {id : ℕ} (h : w.Attended id) (e : Exit) : (w.stop e).Attended id :=
  h.imp_right fun ha => List.mem_append_left _ (List.mem_append_left _ ha)

omit [DecidableEq V] in
theorem World.Patient.stop (h : w.Patient) (hrun : w.exit = none) {e : Exit}
    (he : e = .finished → w.handles = 0 ∧ w.queue = []) : (w.stop e).Patient := by
  refine ⟨fun hnone => ?_,fun hfin => ?_⟩
  · cases hnone
  · obtain ⟨hhandles,hqueue⟩ := he (Option.some.inj hfin)
    refine ⟨hhandles,fun id hid => World.stop_attended ?_ e⟩
    refine (h.running hrun id hid).resolve_right fun hmem => ?_
    rw [hqueue] at hmem
    cases hmem

structure World.Sound (w : World P B V) : Prop where
  ok : w.Ok
  patient : w.Patient

omit [DecidableEq V] in
theorem World.Sound.stop (h : w.Sound) (hrun : w.exit = none) {e : Exit}
    (he : e = .finished → w.handles = 0 ∧ w.queue = []) : (w.stop e).Sound :=
  ⟨h.ok.stop e,h.patient.stop hrun he⟩

theorem Served.carryOn {r : World P B V × Option Stop} (h : Served chance w r.1)
    (hw : w.Sound) (hrun : w.exit = none) : (World.carryOn r).Sound := by
  obtain ⟨w',error⟩ := r
  have hsound : w'.Sound := ⟨h.ok hw.ok hrun,h.patient hw.patient⟩
  cases error with
  | none => exact hsound
  | some stop =>
    refine hsound.stop (h.exit.trans hrun) fun heq => ?_
    cases stop <;> cases heq

omit [DecidableEq V] in
theorem World.new_sound (C : Setup) (p : P) : (World.new C p : World P B V).Sound := by
  have hfiled : ∀ n e, (World.new C p : World P B V).desk.pending.lookup n = some e →
      ([] : List (Pending V))[e.completion]? = some ⟨n,e.value⟩ := by
    intro n e he
    simp [World.new] at he
  refine ⟨⟨⟨hfiled,fun _ _ hx => absurd hx List.not_mem_nil,List.Sublist.refl _,Nat.zero_le _,
    List.Sublist.refl _⟩,List.Perm.refl _,List.forall_mem_nil _,fun _ => ⟨rfl,rfl⟩⟩,
    fun _ id hid => absurd hid (Nat.not_lt_zero id),fun hfin => ?_⟩
  cases hfin

omit [DecidableEq V] in
/-- The protocol, the flags and, while there are handles, their number do not matter. -/
theorem World.Sound.same (h : w.Sound) (hdesk : w'.desk = w.desk) (hqueue : w'.queue = w.queue)
    (hexit : w'.exit = w.exit) (hcalls : w'.calls = w.calls)
    (hhandles : 0 < w.handles ∨ w'.handles = w.handles) : w'.Sound := by
  have hatt : ∀ id, w'.Attended id ↔ w.Attended id := by
    intro id
    rw [World.Attended,World.Attended,hdesk]
  refine ⟨⟨?_,?_,?_,?_⟩,fun hrun => ?_,fun hfin => ?_⟩
  · rw [hdesk,hcalls]
    exact h.ok.desk
  · rw [World.ids,hdesk,hqueue,hcalls]
    exact h.ok.accounted
  · rw [hqueue,hcalls]
    exact h.ok.queued
  · rw [hexit,hqueue,hdesk]
    exact h.ok.stopped
  · simp only [hatt,hcalls,hqueue]
    exact h.patient.running (hexit ▸ hrun)
  · obtain ⟨hzero,hall⟩ := h.patient.finished (hexit ▸ hfin)
    simp only [hatt,hcalls]
    refine ⟨?_,hall⟩
    rcases hhandles with hpos | hsame
    · omega
    · exact hsame.trans hzero

omit [DecidableEq V] in
theorem World.Sound.queued_call (h : w.Sound) (p : Pending V) {s : Submission V} (hs : s ∈ w.queue) :
    (w.calls ++ [p])[s.completion]? = some s.pending := by
  have hcall := h.ok.queued s hs
  rw [List.getElem?_append_left (List.getElem?_eq_some_iff.mp hcall).1]
  exact hcall

omit [DecidableEq V] in
theorem World.Sound.accounted_call (h : w.Sound) (p : Pending V) {ids : List ℕ}
    (hids : ids.Perm (w.calls.length :: w.ids)) : ids.Perm (List.range (w.calls ++ [p]).length) := by
  rw [List.length_append,List.length_singleton,List.range_succ]
  exact (hids.trans (h.ok.accounted.cons _)).trans (List.perm_append_singleton _ _).symm

omit [DecidableEq V] in
theorem World.Sound.refuse (h : w.Sound) (p : Pending V) (hh : 0 < w.handles) {error : ProposeError}
    (hwhy : error = .channelFull ∨ w.exit.isSome = true) :
    World.Sound { w with
      calls := w.calls ++ [p]
      desk := { w.desk with answers := w.desk.answers ++ [(w.calls.length,.error error)] } } := by
  have hdesk := h.ok.desk.mono (List.prefix_append w.calls [p])
  refine ⟨⟨hdesk.refuse _ (by simp [Except.toOption]),h.accounted_call p ?_,fun s => h.queued_call p,
    h.ok.stopped⟩,⟨fun hrun id hid => ?_,fun hfin => ?_⟩⟩
  · simp only [World.ids,Desk.ids,List.map_append,List.map_cons,List.map_nil,List.append_assoc,
      List.cons_append,List.nil_append]
    exact List.perm_middle
  · rw [List.length_append,List.length_singleton] at hid
    rcases Nat.lt_succ_iff_lt_or_eq.mp hid with hlt | rfl
    · refine (h.patient.running hrun id hlt).imp_left fun hatt => ?_
      exact hatt.imp_right fun ha => List.mem_append_left _ ha
    · rcases hwhy with rfl | hexit
      · exact Or.inl (Or.inr (List.mem_append_right _ (List.mem_singleton.mpr rfl)))
      · rw [show w.exit = none from hrun] at hexit
        cases hexit
  · have hzero := (h.patient.finished hfin).1
    omega

omit [DecidableEq V] in
/-- A call is refused at once or enters the queue. -/
theorem World.Sound.propose (h : w.Sound) (p : Pending V) (hh : 0 < w.handles) :
    (w.propose p).Sound := by
  unfold World.propose
  simp only
  split
  · rename_i hexit
    exact h.refuse p hh (Or.inr hexit)
  · rename_i hexit
    have hrun : w.exit = none := by simpa using hexit
    split
    · exact h.refuse p hh (Or.inl rfl)
    · refine ⟨⟨h.ok.desk.mono (List.prefix_append w.calls [p]),h.accounted_call p ?_,fun s hs => ?_,
        fun he => ?_⟩,⟨fun _ id hid => ?_,fun hfin => ?_⟩⟩
      · simp only [World.ids,List.map_append,List.map_cons,List.map_nil]
        rw [← List.append_assoc]
        exact List.perm_append_singleton _ _
      · rcases List.mem_append.mp hs with hs | hs
        · exact h.queued_call p hs
        · rw [List.mem_singleton.mp hs]
          exact List.getElem?_concat_length
      · rw [hrun] at he
        cases he
      · rw [List.length_append,List.length_singleton] at hid
        rw [List.map_append]
        rcases Nat.lt_succ_iff_lt_or_eq.mp hid with hlt | rfl
        · exact (h.patient.running hrun id hlt).imp_right fun hmem => List.mem_append_left _ hmem
        · exact Or.inr (List.mem_append_right _ (List.mem_singleton.mpr rfl))
      · rw [hrun] at hfin
        cases hfin

omit [DecidableEq V] in
theorem World.Sound.enter (h : w.Sound) (hrun : w.exit = none) {s : Submission V}
    {queue : List (Submission V)} (hq : w.queue = s :: queue) :
    World.Sound { w with queue := queue, desk := w.desk.insert s } := by
  have hs : s ∈ w.queue := hq ▸ List.mem_cons_self
  refine ⟨⟨h.ok.desk.insert (h.ok.queued s hs),?_,fun s' hs' => ?_,fun he => ?_⟩,
    ⟨fun _ id hid => ?_,fun hfin => ?_⟩⟩
  · refine List.Perm.trans ?_ h.ok.accounted
    simp only [World.ids,hq,List.map_cons]
    exact ((w.desk.ids_insert s).append_right _).trans List.perm_middle.symm
  · exact h.ok.queued s' (hq ▸ List.mem_cons_of_mem s hs')
  · rw [hrun] at he
    cases he
  · rcases h.patient.running hrun id hid with hatt | hmem
    · refine Or.inl (hatt.imp (fun he => List.mem_append_left _ he) fun ha => ?_)
      exact List.mem_append_left _ ha
    · rw [hq,List.map_cons] at hmem
      rcases List.mem_cons.mp hmem with rfl | hmem
      · exact Or.inl (Or.inl (List.mem_append_right _ (List.mem_singleton.mpr rfl)))
      · exact Or.inr hmem
  · rw [hrun] at hfin
    cases hfin

theorem World.Sound.step (h : w.Sound) {a : Action E B V} (hs : w.step G C a = some w') :
    w'.Sound := by
  cases World.step_moves hs with
  | call nonce value hh => exact h.propose ⟨nonce,value⟩ hh
  | clone hh => exact h.same rfl rfl rfl rfl (Or.inl hh)
  | dropHandle hh => exact h.same rfl rfl rfl rfl (Or.inl hh)
  | run env p => exact h.same rfl rfl rfl rfl (Or.inr rfl)
  | unloaded env p e _ hrun =>
    have hstarted : World.Sound { w with protocol := p, started := true } :=
      h.same rfl rfl rfl rfl (Or.inr rfl)
    refine hstarted.stop hrun fun heq => ?_
    cases heq
  | submission env chance s queue hl hq =>
    have hrun := w.running hl
    exact (World.finish_served G C env chance _ _).publishState.carryOn (h.enter hrun hq) hrun
  | shutdown _ _ hl hq hzero => exact h.stop (w.running hl) fun _ => ⟨hzero,hq⟩
  | receive envs chance data hl =>
    exact (World.handleIncomingBytes_served G C envs chance w data).carryOn h (w.running hl)
  | noQuorum _ _ hl =>
    refine h.stop (w.running hl) fun heq => ?_
    cases heq
  | disconnected => exact h.same rfl rfl rfl rfl (Or.inr rfl)
  | tick env chance hl =>
    exact (World.finish_served G C env chance w _).publishState.carryOn h (w.running hl)
  | took =>
    exact ⟨⟨h.ok.desk.take 1,h.ok.accounted,h.ok.queued,h.ok.stopped⟩,h.patient.running,
      h.patient.finished⟩
  | deaf =>
    refine ⟨⟨⟨h.ok.desk.filed,h.ok.desk.truthful,h.ok.desk.inOrder,Nat.zero_le _,?_⟩,h.ok.accounted,
      h.ok.queued,h.ok.stopped⟩,h.patient.running,h.patient.finished⟩
    exact ((List.Sublist.refl _).append (List.nil_sublist _)).trans h.ok.desk.delivered
  | dropNode hrun =>
    refine h.stop hrun fun heq => ?_
    cases heq

theorem World.Sound.reaches {ok : World P B V → Action E B V → Prop} {p : P}
    (h : Runs.Reaches (World.step G C) ok (.new C p) w) : w.Sound :=
  h.invariant World.Sound (World.new_sound C p) fun _ _ _ _ hw _ hs => hw.step hs

/-! ### The decision receiver -/

/-- What the decision receiver can notice of a node. -/
structure SameFeed (w w' : World P B V) : Prop where
  channel : w'.desk.channel = w.desk.channel
  listening : w'.desk.listening = w.desk.listening
  drained : w'.desk.drained = w.desk.drained
  taken : w'.desk.taken = w.desk.taken

/-- What a step means for the decision receiver. -/
inductive Feeds (w w' : World P B V) : Prop
  | served (chance : Chance) (xs : List (Decision (Pending V))) (w₁ w₂ : World P B V)
      (hsame : SameFeed w w₁) (hdesk : w₂.desk = w₁.desk.processDecisions chance xs)
      (hdone : SameFeed w₂ w')
  | took (n : ℕ) (h : w'.desk = w.desk.take n)
  | deaf (h : w'.desk.listening = false) (htaken : w'.desk.taken = w.desk.taken)

omit [DecidableEq V] in
theorem SameFeed.refl (w : World P B V) : SameFeed w w := ⟨rfl,rfl,rfl,rfl⟩

theorem SameFeed.feeds (h : SameFeed w w') : Feeds w w' := .served .still [] w w (.refl w) rfl h

theorem Served.feeds {w₁ : World P B V} (hsame : SameFeed w w₁)
    {r : World P B V × Option Stop} (h : Served chance w₁ r.1) :
    Feeds w (World.carryOn r) := by
  obtain ⟨xs,hxs⟩ := h.desk
  refine .served chance xs w₁ r.1 hsame hxs ?_
  obtain ⟨w₂,error⟩ := r
  cases error with
  | none => exact .refl w₂
  | some e => exact ⟨rfl,rfl,rfl,rfl⟩

theorem World.step_feeds {a : Action E B V} (hs : w.step G C a = some w') : Feeds w w' := by
  cases World.step_moves hs with
  | call nonce value =>
    refine SameFeed.feeds ?_
    unfold World.propose
    simp only
    split
    · exact ⟨rfl,rfl,rfl,rfl⟩
    · split
      · exact ⟨rfl,rfl,rfl,rfl⟩
      · exact ⟨rfl,rfl,rfl,rfl⟩
  | submission env chance s queue =>
    have hsame : SameFeed w { w with queue := queue, desk := w.desk.insert s } := ⟨rfl,rfl,rfl,rfl⟩
    exact Served.feeds hsame (World.finish_served G C env chance _ _).publishState
  | receive envs chance data =>
    exact Served.feeds (.refl w) (World.handleIncomingBytes_served G C envs chance w data)
  | tick env chance => exact Served.feeds (.refl w) (World.finish_served G C env chance w _).publishState
  | took => exact .took 1 rfl
  | deaf => exact .deaf rfl rfl
  | clone | dropHandle | run | unloaded | shutdown | noQuorum | disconnected | dropNode =>
    exact SameFeed.feeds ⟨rfl,rfl,rfl,rfl⟩

theorem Feeds.taken (h : Feeds w w') : w.desk.taken <+: w'.desk.taken := by
  cases h with
  | served chance xs w₁ w₂ hsame hdesk hdone =>
    rw [hdone.taken,hdesk,← hsame.taken]
    exact (Desk.processDecisions_keeps chance xs w₁.desk).2.2.2.2
  | took n h =>
    rw [h]
    exact List.prefix_append _ _
  | deaf _ htaken => rw [htaken]

/-- A channel with room for all the decisions gets all of them, whatever is taken
meanwhile. -/
theorem Desk.processDecisions_all (chance : Chance) (xs : List (Decision (Pending V))) {d : Desk V}
    (hl : d.listening = true) (hroom : d.channel.length + xs.length ≤ decisionChannelCapacity) :
    (d.processDecisions chance xs).taken ++ (d.processDecisions chance xs).channel =
      d.taken ++ d.channel ++ xs.map reveal := by
  induction xs generalizing d with
  | nil => simp [Desk.processDecisions]
  | cons x xs ih =>
    rw [List.length_cons] at hroom
    have hshort := (List.drop_sublist (chance.takes x.slot) d.channel).length_le
    have hchannel : (d.decided chance x).channel =
        d.channel.drop (chance.takes x.slot) ++ [reveal x] :=
      if_pos ⟨hl,show (d.channel.drop _).length < _ by omega⟩
    have hrest := ih (d := d.decided chance x) hl (by
      rw [hchannel,List.length_append,List.length_singleton]
      omega)
    have htaken : (d.decided chance x).taken = d.taken ++ d.channel.take (chance.takes x.slot) := rfl
    rw [hchannel,htaken] at hrest
    refine hrest.trans ?_
    rw [List.append_assoc d.taken,← List.append_assoc (d.channel.take _),List.take_append_drop]
    simp

/-- The receiver is there, and before a step the channel has room for all the decisions
of it. -/
def Attentive (G : Engine P E B M V) (C : Setup) (w : World P B V) (a : Action E B V) : Prop :=
  ∀ w', w.step G C a = some w' → w'.desk.listening = true ∧
    w.desk.channel.length + (w'.desk.drained.length - w.desk.drained.length) ≤ decisionChannelCapacity

instance (G : Engine P E B M V) (C : Setup) (w : World P B V) (a : Action E B V) :
    Decidable (Attentive G C w a) :=
  decidable_of_iff ((w.step G C a).all fun w' => w'.desk.listening && decide
      (w.desk.channel.length + (w'.desk.drained.length - w.desk.drained.length) ≤
        decisionChannelCapacity)) (by
    rw [Attentive]
    cases w.step G C a with
    | none => simp
    | some w' => simp)

/-- The receiver has got, or can get, every decision. -/
structure World.Heard (w : World P B V) : Prop where
  listening : w.desk.listening = true
  all : w.desk.taken ++ w.desk.channel = w.desk.drained.map reveal

theorem World.Heard.step (h : w.Heard) {a : Action E B V} (ha : Attentive G C w a)
    (hs : w.step G C a = some w') : w'.Heard := by
  obtain ⟨hlisten,hroom⟩ := ha w' hs
  refine ⟨hlisten,?_⟩
  cases World.step_feeds hs with
  | served chance xs w₁ w₂ hsame hdesk hdone =>
    have hl : w₁.desk.listening = true := hsame.listening.trans h.listening
    have hdrained : w'.desk.drained = w.desk.drained ++ xs := by
      rw [hdone.drained,hdesk,(Desk.processDecisions_keeps chance xs w₁.desk).2.2.2.1,hsame.drained]
    have hfits : w₁.desk.channel.length + xs.length ≤ decisionChannelCapacity := by
      rw [hdrained,List.length_append,Nat.add_sub_cancel_left] at hroom
      rwa [hsame.channel]
    have hall := Desk.processDecisions_all chance xs hl hfits
    rw [hdone.taken,hdone.channel,hdesk,hall,hsame.taken,hsame.channel,h.all,hdrained,
      List.map_append]
  | took n htook =>
    rw [htook]
    simp only [Desk.take,List.append_assoc,List.take_append_drop]
    exact h.all
  | deaf hdeaf =>
    rw [hdeaf] at hlisten
    cases hlisten

theorem World.Heard.reaches {p : P}
    (h : Runs.Reaches (World.step G C) (Attentive G C) (.new C p) w) : w.Heard :=
  h.invariant World.Heard ⟨rfl,rfl⟩ fun _ _ _ _ hw ha hs => hw.step ha hs

end
end EventLoop
end Daccord
