import Daccord.Watch

/-! The client's `watch_stream`: it follows the watch of one server after the other
and asks each new one for the slot after the last it has yielded. -/
namespace Daccord
namespace Service

variable {V : Type}

/-- `tonic::Code`. -/
inductive Code
  | ok
  | cancelled
  | unknown
  | invalidArgument
  | deadlineExceeded
  | notFound
  | alreadyExists
  | permissionDenied
  | resourceExhausted
  | failedPrecondition
  | aborted
  | outOfRange
  | unimplemented
  | internal
  | unavailable
  | dataLoss
  | unauthenticated
  deriving DecidableEq, Repr

def isTransient : Code → Bool
  | .unavailable | .resourceExhausted | .deadlineExceeded => true
  | _ => false

/-- Errors of the client library; `other` stands for those that carry no status. -/
inductive Error
  | rpc (code : Code)
  | other
  deriving DecidableEq, Repr

/-- Delays in milliseconds. -/
def initialReconnectDelay : ℕ := 100
def maxReconnectDelay : ℕ := 5000

/-- The variables of `watch_stream`, what it has yielded, and the error that ended it. -/
structure Client (V : Type) where
  startIndex : ℕ
  lastYielded : Option ℕ
  delay : ℕ
  yielded : List (Decision V)
  error : Option Error

namespace Client

def new (start : ℕ) : Client V := ⟨start,none,initialReconnectDelay,[],none⟩

def nextIndex (c : Client V) : ℕ :=
  match c.lastYielded with
  | some slot => saturatingSucc slot
  | none => c.startIndex

def backOff (c : Client V) : Client V :=
  { c with delay := min (c.delay * 2) maxReconnectDelay }

def status (c : Client V) (code : Code) : Client V :=
  if isTransient code then c.backOff else { c with error := some (.rpc code) }

/-- `open_watch` fails. -/
def refused (c : Client V) : Error → Client V
  | .rpc code => c.status code
  | .other => { c with error := some .other }

def message (c : Client V) (d : Decision V) : Client V :=
  { c with
    lastYielded := some d.slot
    delay := initialReconnectDelay
    yielded := c.yielded ++ [d] }

end Client

/-- The stream that is open: the server behind it with its watcher, and how many
of the decisions the watcher yielded have come through. What the server had in its
log before the watch was opened is appended before the watcher subscribes. -/
structure Session (V : Type) where
  capacity : ℕ
  server : State V
  taken : ℕ

structure System (V : Type) where
  client : Client V
  session : Option (Session V)

def System.init (start : ℕ) : System V := ⟨.new start,none⟩

inductive Event (V : Type)
  | opened (capacity : ℕ)
  | refused (error : Error)
  /-- a step of the server or of its watcher -/
  | served (l : Label V)
  /-- the next decision comes through -/
  | message
  /-- the stream breaks off with a status: a lag or any other error -/
  | status (code : Code)
  | closed

def System.step (s : System V) (e : Event V) : Option (System V) :=
  if s.client.error.isSome then none
  else match s.session, e with
  | none, .opened capacity => some { s with session := some ⟨capacity,.init s.client.nextIndex,0⟩ }
  | none, .refused error => some { s with client := s.client.refused error }
  | some t, .served l =>
    (t.server.step t.capacity l).map fun server =>
      { s with session := some { t with server := server } }
  | some t, .message =>
    t.server.watcher.yielded[t.taken]?.map fun d =>
      ⟨s.client.message d,some { t with taken := t.taken + 1 }⟩
  | some _, .status code => some ⟨s.client.status code,none⟩
  | some _, .closed => some ⟨s.client.backOff,none⟩
  | _, _ => none

/-- Slots are below the largest number, and what a server takes into its log is the
value all servers have for the slot. -/
def Agreed (agreed : ℕ → V) (s : System V) : Event V → Prop
  | .served (.append d) => d.slot < maxSlot ∧
      ∀ t ∈ s.session, ¬ t.server.log.Has d.slot → d.value = agreed d.slot
  | _ => True

instance [DecidableEq V] (agreed : ℕ → V) (s : System V) : (e : Event V) → Decidable (Agreed agreed s e)
  | .served (.append d) => inferInstanceAs (Decidable (d.slot < maxSlot ∧
      ∀ t ∈ s.session, ¬ t.server.log.Has d.slot → d.value = agreed d.slot))
  | .served (.send _) | .served .subscribe | .served .snapshot | .served .poll | .served .close
  | .opened _ | .refused _ | .message | .status _ | .closed => isTrue trivial

structure System.Ok (agreed : ℕ → V) (start : ℕ) (s : System V) : Prop where
  yielded : ∀ i d, s.client.yielded[i]? = some d → d.slot = start + i ∧ d.value = agreed d.slot
  next : s.client.nextIndex = start + s.client.yielded.length
  session : ∀ t ∈ s.session, ∃ first, t.server.Sound first ∧
    first + t.taken = start + s.client.yielded.length ∧
    ∀ d ∈ t.server.log.entries, d.value = agreed d.slot

section
variable {agreed : ℕ → V} {start : ℕ} {s : System V}

theorem System.Ok.init : System.Ok agreed start (.init start) where
  yielded := by simp [System.init,Client.new]
  next := rfl
  session := by simp [System.init]

theorem System.Ok.failed (h : s.Ok agreed start) {c : Client V} (hy : c.yielded = s.client.yielded)
    (hn : c.nextIndex = s.client.nextIndex) : System.Ok agreed start ⟨c,none⟩ where
  yielded := by
    rw [hy]
    exact h.yielded
  next := by
    rw [hy,hn]
    exact h.next
  session := nofun

theorem Client.status_facts (c : Client V) (code : Code) :
    (c.status code).yielded = c.yielded ∧ (c.status code).nextIndex = c.nextIndex := by
  unfold Client.status
  split <;> exact ⟨rfl,rfl⟩

theorem Client.refused_facts (c : Client V) (e : Error) :
    (c.refused e).yielded = c.yielded ∧ (c.refused e).nextIndex = c.nextIndex := by
  cases e with
  | rpc code => exact c.status_facts code
  | other => exact ⟨rfl,rfl⟩

theorem DecisionLog.mem_append {log : DecisionLog V} {d e : Decision V}
    (h : e ∈ (log.append d).1.entries) : e ∈ log.entries ∨ (e = d ∧ ¬ log.Has d.slot) := by
  unfold DecisionLog.append at h
  split at h
  · exact .inl h
  · rw [List.mem_orderedInsert] at h
    exact h.elim (fun he => .inr ⟨he,‹_›⟩) .inl

theorem State.step_entries {capacity : ℕ} {t t' : State V} {l : Label V}
    (hs : t.step capacity l = some t') {e : Decision V} (he : e ∈ t'.log.entries) :
    e ∈ t.log.entries ∨ (l = .append e ∧ ¬ t.log.Has e.slot) := by
  cases l with
  | append d =>
    cases hs
    rcases DecisionLog.mem_append he with he | ⟨rfl,hnew⟩
    · exact .inl he
    · exact .inr ⟨rfl,hnew⟩
  | send pos =>
    obtain ⟨d,_,rfl⟩ := Option.map_eq_some_iff.mp hs
    exact .inl he
  | subscribe | snapshot =>
    simp only [State.step] at hs
    split at hs
    · cases hs
      exact .inl he
    · cases hs
  | poll =>
    obtain ⟨w,_,rfl⟩ := Option.map_eq_some_iff.mp hs
    exact .inl he
  | close =>
    cases hs
    exact .inl he

theorem System.Ok.step {s' : System V} {e : Event V} (h : s.Ok agreed start)
    (hok : Agreed agreed s e) (hs : s.step e = some s') : s'.Ok agreed start := by
  unfold System.step at hs
  split at hs
  · cases hs
  split at hs
  · rename_i capacity hsession
    cases hs
    refine { h with session := ?_ }
    rintro t ⟨⟩
    exact ⟨_,.init,h.next,by simp [State.init,DecisionLog.new]⟩
  · rename_i error hsession
    cases hs
    obtain ⟨hy,hn⟩ := s.client.refused_facts error
    have := h.failed hy hn
    rwa [← hsession] at this
  · rename_i t l hsession
    obtain ⟨server,hserver,rfl⟩ := Option.map_eq_some_iff.mp hs
    have hrange : InRange t.server l := by
      cases l with
      | append d => exact hok.1
      | send | subscribe | snapshot | poll | close => trivial
    obtain ⟨first,hsound,hfirst,hagreed⟩ := h.session t hsession
    refine { h with session := ?_ }
    rintro t' ⟨⟩
    refine ⟨first,hsound.step hrange hserver,hfirst,fun d hd => ?_⟩
    rcases State.step_entries hserver hd with hd | ⟨rfl,hnew⟩
    · exact hagreed d hd
    · exact hok.2 t hsession hnew
  · rename_i t hsession
    obtain ⟨d,hd,rfl⟩ := Option.map_eq_some_iff.mp hs
    obtain ⟨first,hsound,hfirst,hagreed⟩ := h.session t hsession
    obtain ⟨hE,hslot⟩ := hsound.watcher.yielded _ _ hd
    have hmax := hsound.range d hE
    refine ⟨?_,?_,?_⟩
    · intro i x hx
      rcases lt_trichotomy i s.client.yielded.length with hi | rfl | hi
      · rw [Client.message,List.getElem?_append_left hi] at hx
        exact h.yielded i x hx
      · have : d = x := by simpa [Client.message] using hx
        subst this
        exact ⟨by omega,hagreed d hE⟩
      · rw [Client.message,List.getElem?_eq_none (by simp; omega)] at hx
        cases hx
    · simp only [Client.nextIndex,Client.message,saturatingSucc_eq hmax,List.length_append,
        List.length_singleton]
      omega
    · rintro t' ⟨⟩
      refine ⟨first,hsound,?_,hagreed⟩
      simp only [Client.message,List.length_append,List.length_singleton]
      omega
  · rename_i t code hsession
    cases hs
    obtain ⟨hy,hn⟩ := s.client.status_facts code
    exact h.failed hy hn
  · cases hs
    exact h.failed rfl rfl
  · cases hs

end

/-- The client's watch is exactly once: across any number of streams, servers and
failures it yields the slots from `start` on, one after the other, each with the
value the servers agree on. -/
theorem client_watch_exact (agreed : ℕ → V) (start : ℕ) (s : System V)
    (h : Runs.Reaches System.step (Agreed agreed) (.init start) s) (i : ℕ) (d : Decision V)
    (hd : s.client.yielded[i]? = some d) : d.slot = start + i ∧ d.value = agreed d.slot := by
  have hok : s.Ok agreed start := h.invariant (System.Ok agreed start) .init
    fun _ _ _ _ hs hok hstep => hs.step hok hstep
  exact hok.yielded i d hd

/-- The first server goes away after slot 0; the second one has slots 0 and 1. -/
def twoServers : List (Event ℕ) :=
  [.opened 8,.served (.append ⟨0,10⟩),.served .subscribe,.served .snapshot,.served .poll,.message,
    .status .unavailable,.refused (.rpc .unavailable),.opened 8,.served (.append ⟨1,11⟩),
    .served (.append ⟨0,10⟩),.served .subscribe,.served .snapshot,.served .poll,.served .poll,.message]

def twoServersEnd : System ℕ :=
  Runs.after System.step (Agreed (· + 10)) (.init 0) twoServers (by decide +kernel)

theorem client_watch_exact_twoServers :
    twoServersEnd.client.yielded[1]? = some ⟨1,11⟩ ∧ (⟨1,11⟩ : Decision ℕ).slot = 0 + 1 ∧
      (⟨1,11⟩ : Decision ℕ).value = 1 + 10 :=
  ⟨by decide +kernel,client_watch_exact (· + 10) 0 twoServersEnd
    (Runs.after_reaches .start (by decide +kernel)) 1 ⟨1,11⟩ (by decide +kernel)⟩

end Service
end Daccord
