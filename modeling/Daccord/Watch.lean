import Daccord.Messages
import Daccord.Runs

/-! The decision log of the demo service and `watch_decisions`: appends insert and
broadcast in two steps, and a watcher subscribes, takes a snapshot and follows
the broadcasts, all interleaved in any way. -/
namespace Daccord
namespace Service

variable {V : Type}

def maxSlot : ℕ := 2 ^ 64 - 1

/-- `saturating_add(1)`. -/
def saturatingSucc (n : ℕ) : ℕ := min (n + 1) maxSlot

def bySlot (a b : Decision V) : Prop := a.slot ≤ b.slot

instance : DecidableRel (bySlot : Decision V → Decision V → Prop) :=
  fun a b => Nat.decLe a.slot b.slot

/-- `entries` of a `DecisionLog`, in slot order with one entry a slot. -/
structure DecisionLog (V : Type) where
  entries : List (Decision V)
  sorted : entries.Pairwise fun a b => a.slot < b.slot

namespace DecisionLog

def new : DecisionLog V := ⟨[],.nil⟩

def Has (log : DecisionLog V) (slot : ℕ) : Prop := ∃ d ∈ log.entries, d.slot = slot

instance (log : DecisionLog V) (slot : ℕ) : Decidable (log.Has slot) :=
  inferInstanceAs (Decidable (∃ d ∈ log.entries, d.slot = slot))

theorem pairwise_orderedInsert {l : List (Decision V)} {d : Decision V}
    (h : l.Pairwise fun a b => a.slot < b.slot) (hd : ∀ e ∈ l, e.slot ≠ d.slot) :
    (l.orderedInsert bySlot d).Pairwise fun a b => a.slot < b.slot := by
  induction l with
  | nil => simp
  | cons e l ih =>
    obtain ⟨hle,hl⟩ := List.pairwise_cons.mp h
    have hne := hd e List.mem_cons_self
    rw [List.orderedInsert_cons]
    split
    · rename_i hde
      have hlt : d.slot < e.slot := lt_of_le_of_ne hde hne.symm
      refine List.pairwise_cons.mpr ⟨?_,h⟩
      intro x hx
      rcases List.mem_cons.mp hx with rfl | hx
      · exact hlt
      · exact hlt.trans (hle x hx)
    · rename_i hde
      refine List.pairwise_cons.mpr ⟨?_,ih hl fun x hx => hd x (List.mem_cons_of_mem _ hx)⟩
      intro x hx
      rw [List.mem_orderedInsert] at hx
      rcases hx with rfl | hx
      · exact Nat.lt_of_not_le hde
      · exact hle x hx

theorem sorted_insert (log : DecisionLog V) {d : Decision V} (h : ¬ log.Has d.slot) :
    (log.entries.orderedInsert bySlot d).Pairwise fun a b => a.slot < b.slot :=
  pairwise_orderedInsert log.sorted fun e he heq => h ⟨e,he,heq⟩

/-- The locked part of `append`: a slot that is there is left alone, and only a
new one is broadcast. -/
def append (log : DecisionLog V) (d : Decision V) : DecisionLog V × Option (Decision V) :=
  if h : log.Has d.slot then (log,none)
  else (⟨log.entries.orderedInsert bySlot d,log.sorted_insert h⟩,some d)

end DecisionLog

inductive Phase (V : Type)
  | idle
  | subscribed
  /-- in the loop over the rest of the snapshot -/
  | scanning (rest : List (Decision V))
  /-- in the loop over the broadcasts -/
  | live
  | ended

/-- A watcher with its end of the broadcast channel. -/
structure Watcher (V : Type) where
  phase : Phase V
  /-- what has been sent to the receiver and not received -/
  queue : List (Decision V)
  lagged : Bool
  nextSlot : ℕ
  buffered : AList fun _ : ℕ => Decision V
  /-- inside the loop that empties `buffered` -/
  draining : Bool
  yielded : List (Decision V)
  /-- `resource_exhausted` has been yielded -/
  failed : Bool

def Watcher.new (start : ℕ) : Watcher V := ⟨.idle,[],false,start,∅,false,[],false⟩

def Watcher.take (w : Watcher V) (d : Decision V) : Watcher V :=
  if d.slot < w.nextSlot then w
  else if d.slot = w.nextSlot then
    { w with
      nextSlot := saturatingSucc w.nextSlot
      yielded := w.yielded ++ [d]
      draining := true }
  else if d.slot ∈ w.buffered then w
  else { w with buffered := w.buffered.insert d.slot d }

@[simp] theorem Watcher.take_lagged (w : Watcher V) (d : Decision V) :
    (w.take d).lagged = w.lagged := by
  unfold Watcher.take
  split_ifs <;> rfl

/-- One turn of `while let Some(..) = buffered.remove(&next_slot)`. -/
def Watcher.drain (w : Watcher V) : Watcher V :=
  match w.buffered.lookup w.nextSlot with
  | some d =>
    { w with
      buffered := w.buffered.erase w.nextSlot
      nextSlot := saturatingSucc w.nextSlot
      yielded := w.yielded ++ [d] }
  | none => { w with draining := false }

@[simp] theorem Watcher.drain_phase (w : Watcher V) : w.drain.phase = w.phase := by
  unfold Watcher.drain
  split <;> rfl

@[simp] theorem Watcher.drain_lagged (w : Watcher V) : w.drain.lagged = w.lagged := by
  unfold Watcher.drain
  split <;> rfl

/-- The log, the appends between their insertion and their broadcast, every
decision ever appended, and one watcher. -/
structure State (V : Type) where
  log : DecisionLog V
  sending : List (Decision V)
  appended : List (Decision V)
  closed : Bool
  watcher : Watcher V

def State.init (start : ℕ) : State V := ⟨.new,[],[],false,.new start⟩

/-- Hand a broadcast to the receiver; a full channel loses its oldest message. -/
def Watcher.receive (capacity : ℕ) (w : Watcher V) (d : Decision V) : Watcher V :=
  match w.phase with
  | .idle | .ended => w
  | _ =>
    if w.queue.length < capacity then { w with queue := w.queue ++ [d] }
    else { w with queue := w.queue.tail ++ [d], lagged := true }

/-- The watcher's next step of its own; `none` when it waits. -/
def Watcher.poll (closed : Bool) (w : Watcher V) : Option (Watcher V) :=
  if w.draining then some w.drain
  else match w.phase with
  | .scanning (d :: rest) => some ({ w with phase := .scanning rest }.take d)
  | .scanning [] => some { w with phase := .live }
  | .live =>
    if w.lagged then some { w with phase := .ended, failed := true }
    else match w.queue with
    | d :: queue => some ({ w with queue := queue }.take d)
    | [] => if closed then some { w with phase := .ended } else none
  | _ => none

inductive Label (V : Type)
  | append (d : Decision V)
  | send (pos : ℕ)
  | subscribe
  | snapshot
  | poll
  | close

def State.step (capacity : ℕ) (s : State V) : Label V → Option (State V)
  | .append d =>
    let r := s.log.append d
    some { s with
      log := r.1
      sending := s.sending ++ r.2.toList
      appended := s.appended ++ [d] }
  | .send pos =>
    s.sending[pos]?.map fun d =>
      { s with sending := s.sending.eraseIdx pos, watcher := s.watcher.receive capacity d }
  | .subscribe =>
    match s.watcher.phase with
    | .idle => some { s with watcher := { s.watcher with phase := .subscribed } }
    | _ => none
  | .snapshot =>
    match s.watcher.phase with
    | .subscribed => some { s with watcher := { s.watcher with phase := .scanning s.log.entries } }
    | _ => none
  | .poll => (s.watcher.poll s.closed).map fun w => { s with watcher := w }
  | .close => some { s with closed := true }

def InRange (_ : State V) : Label V → Prop
  | .append d => d.slot < maxSlot
  | _ => True

instance (s : State V) : (l : Label V) → Decidable (InRange s l)
  | .append d => Nat.decLt d.slot maxSlot
  | .send _ | .subscribe | .snapshot | .poll | .close => isTrue trivial

def State.first (s : State V) (slot : ℕ) : Option V :=
  (s.appended.find? fun d => d.slot = slot).map Decision.value

namespace DecisionLog

theorem eq_of_slot (log : DecisionLog V) {d e : Decision V} (hd : d ∈ log.entries)
    (he : e ∈ log.entries) (h : d.slot = e.slot) : d = e := by
  have : Std.Symm fun a b : Decision V => a.slot ≠ b.slot := ⟨fun _ _ => Ne.symm⟩
  by_contra hne
  exact (log.sorted.imp Nat.ne_of_lt).forall hd he hne h

end DecisionLog

/-! What a watcher has in hand. -/

def Phase.rest : Phase V → List (Decision V)
  | .scanning rest => rest
  | _ => []

/-- The watcher has taken its snapshot and goes on. -/
def Phase.started : Phase V → Bool
  | .scanning _ | .live => true
  | _ => false

/-- Decision `d` is past the watcher, in its buffer, or still to come to it. -/
def Watcher.Covers (w : Watcher V) (d : Decision V) : Prop :=
  d ∈ w.queue ∨ d ∈ w.phase.rest ∨ d.slot ∈ w.buffered ∨ d.slot < w.nextSlot

/-- A watcher that has only seen decisions of the log `E`. -/
structure Watcher.Ok (start : ℕ) (E : List (Decision V)) (w : Watcher V) : Prop where
  queue : ∀ d ∈ w.queue, d ∈ E
  rest : ∀ d ∈ w.phase.rest, d ∈ E
  buffered : ∀ k d, w.buffered.lookup k = some d → d ∈ E ∧ d.slot = k
  yielded : ∀ i d, w.yielded[i]? = some d → d ∈ E ∧ d.slot = start + i
  next : w.nextSlot = start + w.yielded.length
  drained : w.draining = false → w.buffered.lookup w.nextSlot = none

section
variable {start : ℕ} {E : List (Decision V)} {w : Watcher V} {d e : Decision V}

theorem saturatingSucc_eq {n : ℕ} (h : n < maxSlot) : saturatingSucc n = n + 1 :=
  min_eq_left h

theorem Watcher.Ok.new : Watcher.Ok (V := V) start E (.new start) where
  queue := by simp [Watcher.new]
  rest := by simp [Watcher.new,Phase.rest]
  buffered := by simp [Watcher.new]
  yielded := by simp [Watcher.new]
  next := by simp [Watcher.new]
  drained := by simp [Watcher.new]

theorem Watcher.Ok.mono {E' : List (Decision V)} (h : w.Ok start E) (hE : ∀ d ∈ E, d ∈ E') :
    w.Ok start E' where
  queue d hd := hE d (h.queue d hd)
  rest d hd := hE d (h.rest d hd)
  buffered k d hd := (h.buffered k d hd).imp_left (hE d)
  yielded i d hd := (h.yielded i d hd).imp_left (hE d)
  next := h.next
  drained := h.drained

theorem Watcher.Ok.yield (h : w.Ok start E) (hd : d ∈ E) (hslot : d.slot = w.nextSlot)
    (hmax : d.slot < maxSlot) (buffered : AList fun _ : ℕ => Decision V)
    (hb : ∀ k d, buffered.lookup k = some d → w.buffered.lookup k = some d) :
    Watcher.Ok start E { w with
      buffered := buffered
      nextSlot := saturatingSucc w.nextSlot
      yielded := w.yielded ++ [d]
      draining := true } where
  queue := h.queue
  rest := h.rest
  buffered k e he := h.buffered k e (hb k e he)
  yielded := by
    intro i e he
    rcases lt_trichotomy i w.yielded.length with hi | rfl | hi
    · rw [List.getElem?_append_left hi] at he
      exact h.yielded i e he
    · have : d = e := by simpa using he
      exact this ▸ ⟨hd,hslot.trans h.next⟩
    · rw [List.getElem?_eq_none (by simp; omega)] at he
      cases he
  next := by
    rw [saturatingSucc_eq (hslot ▸ hmax),h.next,List.length_append,List.length_singleton]
    rfl
  drained := nofun

theorem Watcher.Ok.take (h : w.Ok start E) (hd : d ∈ E) (hmax : d.slot < maxSlot)
    (hidle : w.draining = false) : (w.take d).Ok start E := by
  unfold Watcher.take
  split
  · exact h
  split
  · exact h.yield hd ‹_› hmax w.buffered fun _ _ hk => hk
  split
  · exact h
  · refine { h with buffered := ?_, drained := ?_ }
    · intro k e hk
      by_cases hkd : k = d.slot
      · subst hkd
        rw [AList.lookup_insert] at hk
        cases hk
        exact ⟨hd,rfl⟩
      · rw [AList.lookup_insert_ne hkd] at hk
        exact h.buffered k e hk
    · intro _
      rw [AList.lookup_insert_ne (Ne.symm ‹_›)]
      exact h.drained hidle

theorem Watcher.Ok.drain (h : w.Ok start E) (hmax : ∀ d ∈ E, d.slot < maxSlot)
    (hdrain : w.draining = true) : w.drain.Ok start E := by
  unfold Watcher.drain
  split
  · rename_i d hd
    obtain ⟨hE,hslot⟩ := h.buffered _ _ hd
    have hok := h.yield hE hslot (hmax d hE) (w.buffered.erase w.nextSlot) fun k e hk => by
        by_cases hkn : k = w.nextSlot
        · subst hkn
          rw [AList.lookup_erase] at hk
          cases hk
        · rwa [AList.lookup_erase_ne hkn] at hk
    rw [← hdrain] at hok
    exact hok
  · exact { h with drained := fun _ => ‹_› }

/-- Handling a decision covers it and uncovers nothing. -/
theorem Watcher.take_covers (w : Watcher V) (hmax : d.slot < maxSlot) :
    (w.take d).Covers d ∧ ∀ e, w.Covers e → (w.take d).Covers e := by
  unfold Watcher.take
  split
  · exact ⟨.inr (.inr (.inr ‹_›)),fun _ he => he⟩
  split
  · rename_i hslot
    have hnext : saturatingSucc w.nextSlot = w.nextSlot + 1 := saturatingSucc_eq (hslot ▸ hmax)
    simp only [Watcher.Covers,hnext]
    refine ⟨.inr (.inr (.inr (by omega))),fun e he => ?_⟩
    exact he.imp_right (.imp_right (.imp_right fun hlt => by omega))
  split
  · exact ⟨.inr (.inr (.inl ‹_›)),fun _ he => he⟩
  · simp only [Watcher.Covers,AList.mem_insert]
    refine ⟨by simp,fun e he => ?_⟩
    exact he.imp_right (.imp_right (.imp_left .inr))

theorem Watcher.drain_covers (h : w.Ok start E) (hmax : ∀ d ∈ E, d.slot < maxSlot)
    (he : w.Covers e) : w.drain.Covers e := by
  unfold Watcher.drain
  split
  · rename_i d hd
    obtain ⟨hE,hslot⟩ := h.buffered _ _ hd
    have hnext : saturatingSucc w.nextSlot = w.nextSlot + 1 :=
      saturatingSucc_eq (hslot ▸ hmax d hE)
    simp only [Watcher.Covers,hnext,AList.mem_erase]
    rcases he with he | he | he | he
    · exact .inl he
    · exact .inr (.inl he)
    · by_cases hen : e.slot = w.nextSlot
      · exact .inr (.inr (.inr (by omega)))
      · exact .inr (.inr (.inl ⟨hen,he⟩))
    · exact .inr (.inr (.inr (by omega)))
  · exact he

/-- A step of the watcher's own keeps what it knows, and loses track of nothing
unless it ends. -/
theorem Watcher.Ok.poll {closed : Bool} {w' : Watcher V} (h : w.Ok start E)
    (hmax : ∀ d ∈ E, d.slot < maxSlot) (hw : w.poll closed = some w') :
    w'.Ok start E ∧ (w'.phase.started = true → w'.lagged = w.lagged ∧ w.phase.started = true ∧
      ∀ e, w.Covers e → w'.Covers e) := by
  unfold Watcher.poll at hw
  split at hw
  · rename_i hdrain
    cases hw
    refine ⟨h.drain hmax hdrain,fun hs => ⟨w.drain_lagged,?_,fun e => w.drain_covers h hmax⟩⟩
    rwa [w.drain_phase] at hs
  · rename_i hidle
    rw [Bool.not_eq_true] at hidle
    split at hw
    · rename_i d rest hphase
      cases hw
      have hd : d ∈ E := h.rest d (by simp [hphase,Phase.rest])
      have hok : Watcher.Ok start E { w with phase := .scanning rest } :=
        { h with rest := fun e he => h.rest e (by simpa [hphase,Phase.rest] using Or.inr he) }
      obtain ⟨hcov,hkeep⟩ := Watcher.take_covers { w with phase := .scanning rest } (hmax d hd)
      refine ⟨hok.take hd (hmax d hd) hidle,fun _ => ⟨?_,by rw [hphase]; rfl,?_⟩⟩
      · rw [Watcher.take_lagged]
      · rintro e (he | he | he)
        · exact hkeep e (.inl he)
        · rw [hphase] at he
          rcases List.mem_cons.mp he with rfl | he
          · exact hcov
          · exact hkeep e (.inr (.inl he))
        · exact hkeep e (.inr (.inr he))
    · rename_i hphase
      cases hw
      refine ⟨{ h with rest := nofun },fun _ => ⟨rfl,by rw [hphase]; rfl,?_⟩⟩
      rintro e (he | he | he)
      · exact .inl he
      · rw [hphase] at he
        cases he
      · exact .inr (.inr he)
    · rename_i hphase
      split at hw
      · cases hw
        exact ⟨{ h with rest := nofun },nofun⟩
      split at hw
      · rename_i d queue hqueue
        cases hw
        have hd : d ∈ E := h.queue d (by simp [hqueue])
        have hok : Watcher.Ok start E { w with queue := queue } :=
          { h with queue := fun e he => h.queue e (by simpa [hqueue] using Or.inr he) }
        obtain ⟨hcov,hkeep⟩ := Watcher.take_covers { w with queue := queue } (hmax d hd)
        refine ⟨hok.take hd (hmax d hd) hidle,fun _ => ⟨?_,by rw [hphase]; rfl,?_⟩⟩
        · rw [Watcher.take_lagged]
        · rintro e (he | he)
          · rw [hqueue] at he
            rcases List.mem_cons.mp he with rfl | he
            · exact hcov
            · exact hkeep e (.inl he)
          · exact hkeep e (.inr he)
      · split at hw
        · cases hw
          exact ⟨{ h with rest := nofun },nofun⟩
        · cases hw
    · cases hw

structure State.Sound (start : ℕ) (s : State V) : Prop where
  first : ∀ d, d ∈ s.log.entries ↔ s.appended.find? (fun e => e.slot = d.slot) = some d
  range : ∀ d ∈ s.log.entries, d.slot < maxSlot
  sending : ∀ d ∈ s.sending, d ∈ s.log.entries
  watcher : s.watcher.Ok start s.log.entries
  covered : s.watcher.phase.started = true → s.watcher.lagged = false →
    ∀ d ∈ s.log.entries, d ∈ s.sending ∨ s.watcher.Covers d

theorem State.Sound.init : State.Sound (V := V) start (.init start) where
  first := by simp [State.init,DecisionLog.new]
  range := by simp [State.init,DecisionLog.new]
  sending := by simp [State.init]
  watcher := .new
  covered := nofun

theorem State.Sound.has_iff {s : State V} (h : s.Sound start) (slot : ℕ) :
    s.log.Has slot ↔ (s.appended.find? fun e => e.slot = slot).isSome = true := by
  constructor
  · rintro ⟨d,hd,rfl⟩
    rw [(h.first d).mp hd]
    rfl
  · intro hsome
    obtain ⟨d,hd⟩ := Option.isSome_iff_exists.mp hsome
    have hslot : d.slot = slot := by simpa using List.find?_some hd
    subst hslot
    exact ⟨d,(h.first d).mpr hd,rfl⟩

/-- The first append of a slot is the one the log keeps. -/
theorem State.Sound.append {s : State V} (h : s.Sound start) (hmax : d.slot < maxSlot) :
    State.Sound start { s with
      log := (s.log.append d).1
      sending := s.sending ++ (s.log.append d).2.toList
      appended := s.appended ++ [d] } := by
  by_cases hhas : s.log.Has d.slot
  · have hlog : s.log.append d = (s.log,none) := dif_pos hhas
    simp only [hlog,Option.toList_none,List.append_nil]
    refine { h with first := fun e => ?_ }
    rw [List.find?_append,h.first e]
    cases he : s.appended.find? fun x => x.slot = e.slot with
    | some x => simp
    | none =>
      have hne : d.slot ≠ e.slot := by
        intro heq
        rw [heq,h.has_iff,he] at hhas
        cases hhas
      simp [hne]
  · have hlog : s.log.append d =
        (⟨s.log.entries.orderedInsert bySlot d,s.log.sorted_insert hhas⟩,some d) := dif_neg hhas
    simp only [hlog,Option.toList_some]
    have hmem : ∀ e, e ∈ s.log.entries.orderedInsert bySlot d ↔ e = d ∨ e ∈ s.log.entries :=
      fun e => by rw [List.mem_orderedInsert]
    have hold : ∀ e ∈ s.log.entries, e ∈ s.log.entries.orderedInsert bySlot d :=
      fun e he => (hmem e).mpr (.inr he)
    refine ⟨fun e => ?_,fun e he => ?_,fun e he => ?_,h.watcher.mono hold,fun hs hl e he => ?_⟩
    · rw [hmem,List.find?_append,h.first e]
      cases he : s.appended.find? fun x => x.slot = e.slot with
      | some x =>
        simp only [Option.some.injEq,Option.some_or]
        refine ⟨fun hor => hor.elim (fun hed => ?_) id,.inr⟩
        rw [h.has_iff,← hed,he] at hhas
        exact absurd rfl hhas
      | none =>
        simp only [reduceCtorEq,or_false,Option.none_or,List.find?_singleton]
        constructor
        · rintro rfl
          simp
        · intro hd
          split at hd
          · exact (Option.some.inj hd).symm
          · cases hd
    · rcases (hmem e).mp he with rfl | he
      · exact hmax
      · exact h.range e he
    · rcases List.mem_append.mp he with he | he
      · exact hold e (h.sending e he)
      · exact (hmem e).mpr (.inl (List.mem_singleton.mp he))
    · rcases (hmem e).mp he with rfl | he
      · exact .inl (List.mem_append_right _ List.mem_cons_self)
      · exact (h.covered hs hl e he).imp_left (List.mem_append_left _)

/-- A broadcast that reaches the receiver comes behind what it has. -/
theorem Watcher.receive_facts (capacity : ℕ) (w : Watcher V) (d : Decision V) :
    (w.receive capacity d = w ∧ w.phase.started = false) ∨
    (∃ queue lagged, w.receive capacity d = { w with queue := queue, lagged := lagged } ∧
      (∀ e ∈ queue, e ∈ w.queue ∨ e = d) ∧
      (lagged = false → w.lagged = false ∧ queue = w.queue ++ [d])) := by
  unfold Watcher.receive
  split
  · rename_i hphase
    exact .inl ⟨rfl,by rw [hphase]; rfl⟩
  · rename_i hphase
    exact .inl ⟨rfl,by rw [hphase]; rfl⟩
  · right
    split
    · exact ⟨_,_,rfl,by simp,fun hl => ⟨hl,rfl⟩⟩
    · refine ⟨_,_,rfl,fun e he => ?_,nofun⟩
      rcases List.mem_append.mp he with he | he
      · exact .inl (List.mem_of_mem_tail he)
      · exact .inr (List.mem_singleton.mp he)

theorem State.Sound.send {s : State V} (h : s.Sound start) (capacity : ℕ) {pos : ℕ}
    (hd : s.sending[pos]? = some d) : State.Sound start { s with
      sending := s.sending.eraseIdx pos
      watcher := s.watcher.receive capacity d } := by
  have hE : d ∈ s.log.entries := h.sending d (List.mem_of_getElem? hd)
  have hsent : ∀ e ∈ s.sending, e = d ∨ e ∈ s.sending.eraseIdx pos := by
    intro e he
    obtain ⟨i,hi⟩ := List.mem_iff_getElem?.mp he
    by_cases hpos : i = pos
    · exact .inl (Option.some.inj (hi.symm.trans (hpos ▸ hd)))
    · exact .inr (List.mem_eraseIdx_iff_getElem?.mpr ⟨i,hpos,hi⟩)
  have hleft : ∀ e ∈ s.sending.eraseIdx pos, e ∈ s.log.entries :=
    fun e he => h.sending e (List.mem_of_mem_eraseIdx he)
  rcases s.watcher.receive_facts capacity d with ⟨heq,hidle⟩ | ⟨queue,lagged,heq,hq,hl⟩
  · rw [heq]
    refine { h with sending := hleft, covered := fun hs => ?_ }
    rw [hidle] at hs
    cases hs
  · rw [heq]
    refine ⟨h.first,h.range,hleft,{ h.watcher with queue := fun e he => ?_ },fun hs hlag e he => ?_⟩
    · rcases hq e he with he | rfl
      · exact h.watcher.queue e he
      · exact hE
    · obtain ⟨hlag',rfl⟩ := hl hlag
      rcases h.covered hs hlag' e he with hsend | hcov
      · rcases hsent e hsend with rfl | hsend
        · exact .inr (.inl (List.mem_append_right _ List.mem_cons_self))
        · exact .inl hsend
      · exact .inr (hcov.imp_left (List.mem_append_left _))

theorem State.Sound.step {s s' : State V} {capacity : ℕ} {l : Label V} (h : s.Sound start)
    (hok : InRange s l) (hs : s.step capacity l = some s') : s'.Sound start := by
  cases l with
  | append d =>
    cases hs
    exact h.append hok
  | send pos =>
    obtain ⟨d,hd,rfl⟩ := Option.map_eq_some_iff.mp hs
    exact h.send capacity hd
  | subscribe =>
    simp only [State.step] at hs
    split at hs
    · cases hs
      exact { h with watcher := { h.watcher with rest := nofun }, covered := nofun }
    · cases hs
  | snapshot =>
    simp only [State.step] at hs
    split at hs
    · cases hs
      exact { h with
        watcher := { h.watcher with rest := fun d hd => hd }
        covered := fun _ _ d hd => .inr (.inr (.inl hd)) }
    · cases hs
  | poll =>
    obtain ⟨w,hw,rfl⟩ := Option.map_eq_some_iff.mp hs
    obtain ⟨hok,hcov⟩ := h.watcher.poll h.range hw
    refine { h with watcher := hok, covered := fun hs hl d hd => ?_ }
    obtain ⟨hlag,hstarted,hkeep⟩ := hcov hs
    exact (h.covered hstarted (hlag ▸ hl) d hd).imp_right (hkeep d)
  | close =>
    cases hs
    exact { h with }

end

/-- Watching has no gaps: what a watcher has yielded are the slots from `start` on,
each with the first value appended for it; and once it has received every
broadcast while no append is under way, unless it lagged, it has yielded every
slot up to which the log is complete. -/
theorem watch_gap_free (capacity start : ℕ) (s : State V)
    (h : Runs.Reaches (State.step capacity) InRange (.init start) s) :
    (∀ i d, s.watcher.yielded[i]? = some d → d.slot = start + i ∧ s.first d.slot = some d.value) ∧
    (s.watcher.phase = .live → s.watcher.lagged = false → s.watcher.queue = [] →
      s.watcher.draining = false → s.sending = [] →
      ∀ slot, start ≤ slot → (∀ k, start ≤ k → k ≤ slot → s.log.Has k) →
        ∃ d ∈ s.watcher.yielded, d.slot = slot) := by
  have hs : s.Sound start := h.invariant (State.Sound start) .init
    fun _ _ _ _ hs hok hstep => hs.step hok hstep
  refine ⟨fun i d hd => ?_,fun hlive hlag hqueue hdrain hsend slot hslot hall => ?_⟩
  · obtain ⟨hE,hslot⟩ := hs.watcher.yielded i d hd
    refine ⟨hslot,?_⟩
    rw [State.first,(hs.first d).mp hE]
    rfl
  · have hstarted : s.watcher.phase.started = true := by
      rw [hlive]
      rfl
    have hrest : s.watcher.phase.rest = [] := by
      rw [hlive]
      rfl
    -- an entry at `nextSlot` would still be in the buffer, and the buffer was emptied
    have hlt : slot < s.watcher.nextSlot := by
      by_contra hge
      obtain ⟨d,hd,hdslot⟩ := hall s.watcher.nextSlot (by rw [hs.watcher.next]; omega) (by omega)
      have hbuf := hs.watcher.drained hdrain
      rcases hs.covered hstarted hlag d hd with hin | hin | hin | hin | hin
      · rw [hsend] at hin
        cases hin
      · rw [hqueue] at hin
        cases hin
      · rw [hrest] at hin
        cases hin
      · rw [hdslot,← AList.lookup_isSome,hbuf] at hin
        cases hin
      · omega
    have hi : slot - start < s.watcher.yielded.length := by
      have := hs.watcher.next
      omega
    refine ⟨s.watcher.yielded[slot - start],List.getElem_mem hi,?_⟩
    have := (hs.watcher.yielded _ _ (List.getElem?_eq_getElem hi)).2
    omega

/-- Slot 1 is appended before slot 0, around the snapshot; slot 0 is appended twice. -/
def outOfOrder : List (Label ℕ) :=
  [.append ⟨1,20⟩,.subscribe,.append ⟨0,10⟩,.append ⟨0,11⟩,.send 0,.snapshot,.poll,.poll,.poll,.poll,
    .poll,.send 0,.poll,.poll]

def outOfOrderEnd : State ℕ :=
  Runs.after (State.step 8) InRange (.init 0) outOfOrder (by decide +kernel)

theorem watch_gap_free_outOfOrder :
    (∃ d ∈ outOfOrderEnd.watcher.yielded, d.slot = 1) ∧ outOfOrderEnd.first 0 = some 10 := by
  have hrun : Runs.Reaches (State.step 8) InRange (.init 0) outOfOrderEnd :=
    Runs.after_reaches .start (by decide +kernel)
  obtain ⟨hyield,hall⟩ := watch_gap_free 8 0 outOfOrderEnd hrun
  refine ⟨hall ?_ (by decide +kernel) (by decide +kernel) (by decide +kernel) (by decide +kernel) 1
    (by decide) ?_,?_⟩
  · rfl
  · intro k _ hk
    interval_cases k <;> decide +kernel
  · exact (hyield 0 ⟨0,10⟩ (by decide +kernel)).2

end Service
end Daccord
