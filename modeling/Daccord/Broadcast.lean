import Mathlib.Data.List.Infix
import Mathlib.Data.List.Perm.Subperm
import Mathlib.Logic.Function.Basic
import Mathlib.Logic.Relation
import Mathlib.Tactic

/-! Total order broadcast: submitted values are put into one sequence, each
submission at most once, and every reader is handed that sequence from its
beginning. Nothing here mentions a protocol. -/
namespace Daccord
namespace Broadcast

variable {ι V : Type}

/-- What can be seen from outside. -/
inductive Event (ι V : Type)
  | submit (v : V)
  | deliver (i : ι) (slot : ℕ) (v : V)
  | restart (i : ι)
  deriving DecidableEq

def Event.submitted : Event ι V → Option V
  | .submit v => some v
  | .deliver .. => none
  | .restart _ => none

def submissions (trace : List (Event ι V)) : List V := trace.filterMap Event.submitted

@[simp] theorem submissions_append (xs ys : List (Event ι V)) :
    submissions (xs ++ ys) = submissions xs ++ submissions ys := List.filterMap_append

@[simp] theorem submissions_deliver (i : ι) (slot : ℕ) (v : V) :
    submissions [Event.deliver i slot v] = [] := rfl

/-- `order` is the one sequence; reader `i` is handed `order[cursor i]` next. -/
structure State (ι V : Type) where
  order : List V
  cursor : ι → ℕ
  trace : List (Event ι V)

def State.start : State ι V := ⟨[],fun _ => 0,[]⟩

/-- A reader is handed the sequence in order. Only one that has restarted may be handed
again what it was handed before. -/
inductive Step [DecidableEq ι] (s : State ι V) : State ι V → Prop
  | submit (v : V) : Step s { s with trace := s.trace ++ [.submit v] }
  | fix (v : V) (hv : (s.order ++ [v]).Subperm (submissions s.trace)) :
      Step s { s with order := s.order ++ [v] }
  | deliver (i : ι) (v : V) (hv : s.order[s.cursor i]? = some v) :
      Step s { s with
        cursor := Function.update s.cursor i (s.cursor i + 1)
        trace := s.trace ++ [.deliver i (s.cursor i) v] }
  | restart (i : ι) (k : ℕ) (hk : k ≤ s.cursor i) :
      Step s { s with
        cursor := Function.update s.cursor i k
        trace := s.trace ++ [.restart i] }

variable [DecidableEq ι] {s s' : State ι V}

def Reached (s : State ι V) : Prop := Relation.ReflTransGen Step .start s

/-- What a trace says about the one sequence. -/
structure Sound (s : State ι V) : Prop where
  once : s.order.Subperm (submissions s.trace)
  cursor : ∀ i, s.cursor i ≤ s.order.length
  delivered : ∀ {i slot v}, .deliver i slot v ∈ s.trace → s.order[slot]? = some v
  /-- what comes no later than a slot that was handed out was submitted before that -/
  settled : ∀ {past}, past <+: s.trace → ∀ {i slot v}, .deliver i slot v ∈ past →
    (s.order.take (slot + 1)).Subperm (submissions past)

omit [DecidableEq ι] in
theorem Sound.start : Sound (State.start : State ι V) := by
  refine ⟨List.nil_subperm,fun _ => le_refl _,?_,?_⟩
  · intro i slot v h
    cases h
  · intro past hpast i slot v h
    rw [List.prefix_nil.mp hpast] at h
    cases h

omit [DecidableEq ι] in
theorem Sound.extend (h : Sound s) {cursor : ι → ℕ} (hcursor : ∀ i, cursor i ≤ s.order.length)
    {e : Event ι V} (he : ∀ i slot v, e = .deliver i slot v → s.order[slot]? = some v) :
    Sound { s with cursor := cursor, trace := s.trace ++ [e] } := by
  have hgrow : s.order.Subperm (submissions (s.trace ++ [e])) := by
    rw [submissions_append]
    exact h.once.trans (List.sublist_append_left _ _).subperm
  refine ⟨hgrow,hcursor,?_,?_⟩
  · intro i slot w hmem
    rcases List.mem_append.mp hmem with hmem | hmem
    · exact h.delivered hmem
    · exact he i slot w (List.mem_singleton.mp hmem).symm
  · intro past hpast i slot w hmem
    rcases List.prefix_concat_iff.mp hpast with rfl | hpast
    · exact (List.take_sublist _ _).subperm.trans hgrow
    · exact h.settled hpast hmem

theorem Sound.step (h : Sound s) (hs : Step s s') : Sound s' := by
  -- a cursor that moves stays within the sequence
  have hmoved : ∀ i k, k ≤ s.order.length → ∀ j, Function.update s.cursor i k j ≤ s.order.length := by
    intro i k hk j
    by_cases hj : j = i
    · subst hj
      simpa using hk
    · simpa [hj] using h.cursor j
  cases hs with
  | submit v =>
    refine h.extend h.cursor fun _ _ _ heq => ?_
    cases heq
  | fix v hv =>
    -- slots handed out lie below the new one
    have hlt : ∀ {i slot w}, .deliver i slot w ∈ s.trace → slot < s.order.length :=
      fun hmem => (List.getElem?_eq_some_iff.mp (h.delivered hmem)).1
    refine ⟨hv,fun i => ?_,?_,?_⟩
    · rw [List.length_append]
      exact (h.cursor i).trans (Nat.le_add_right _ _)
    · intro i slot w hmem
      rw [List.getElem?_append_left (hlt hmem)]
      exact h.delivered hmem
    · intro past hpast i slot w hmem
      rw [List.take_append_of_le_length (hlt (hpast.subset hmem))]
      exact h.settled hpast hmem
  | deliver i v hv =>
    refine h.extend (hmoved i _ (List.getElem?_eq_some_iff.mp hv).1) fun _ _ _ heq => ?_
    cases heq
    exact hv
  | restart i k hk =>
    refine h.extend (hmoved i k (hk.trans (h.cursor i))) fun _ _ _ heq => ?_
    cases heq

theorem Reached.sound (h : Reached s) : Sound s := by
  induction h with
  | refl => exact .start
  | tail _ hs ih => exact ih.step hs

def handed (i : ι) (start : ℕ) (vs : List V) : List (Event ι V) :=
  (vs.zipIdx start).map fun x => .deliver i x.2 x.1

def covering (order : List V) (cursor : ℕ) (vs : List V) : List V :=
  order ++ vs.drop (order.length - cursor)

/-- A reader can be handed any values that fit to the sequence; those behind its
end are put there first. -/
theorem deliver_all (i : ι) (vs : List V) (s : State ι V) (hcur : s.cursor i ≤ s.order.length)
    (hsub : (covering s.order (s.cursor i) vs).Subperm (submissions s.trace))
    (hfit : ∀ n v w, vs[n]? = some v → s.order[s.cursor i + n]? = some w → w = v) :
    Relation.ReflTransGen Step s
      { order := covering s.order (s.cursor i) vs
        cursor := Function.update s.cursor i (s.cursor i + vs.length)
        trace := s.trace ++ handed i (s.cursor i) vs } := by
  induction vs generalizing s with
  | nil => simpa [covering,handed] using Relation.ReflTransGen.refl
  | cons v vs ih =>
    -- first see to it that the sequence has `v` at the cursor
    obtain ⟨order,hsteps,hat,hcover,hnew⟩ : ∃ order, Relation.ReflTransGen Step s { s with order := order } ∧
        order[s.cursor i]? = some v ∧
        covering order (s.cursor i + 1) vs = covering s.order (s.cursor i) (v :: vs) ∧
        ∀ n w, order[s.cursor i + 1 + n]? = some w → s.order[s.cursor i + 1 + n]? = some w := by
      rcases Nat.lt_or_eq_of_le hcur with hlt | heq
      · have hget := List.getElem?_eq_getElem hlt
        refine ⟨s.order,.refl,?_,?_,fun n w hw => hw⟩
        · rw [hget,hfit 0 v _ rfl hget]
        · rw [covering,covering,show s.order.length - s.cursor i =
            (s.order.length - (s.cursor i + 1)) + 1 by omega,List.drop_succ_cons]
      · have hall : covering s.order (s.cursor i) (v :: vs) = s.order ++ [v] ++ vs := by
          simp [covering,heq]
        rw [hall] at hsub
        refine ⟨s.order ++ [v],.single (.fix v ?_),?_,?_,fun n w hw => ?_⟩
        · exact (List.sublist_append_left _ _).subperm.trans hsub
        · simp [heq]
        · simp [covering,heq]
        · have hlen := (List.getElem?_eq_some_iff.mp hw).1
          simp only [List.length_append,List.length_singleton] at hlen
          omega
    have hlt := (List.getElem?_eq_some_iff.mp hat).1
    have hrest := ih
      { order := order
        cursor := Function.update s.cursor i (s.cursor i + 1)
        trace := s.trace ++ [.deliver i (s.cursor i) v] }
      (by simpa using hlt)
      (by simpa [hcover] using hsub)
      (fun n w x hw hx => by
        simp only [Function.update_self] at hx
        refine hfit (n + 1) w x (by simpa using hw) ?_
        rw [Nat.add_comm n,← Nat.add_assoc]
        exact hnew n x hx)
    simp only [Function.update_self,Function.update_idem,hcover] at hrest
    rw [List.length_cons,Nat.add_comm vs.length,← Nat.add_assoc]
    refine (hsteps.tail (.deliver i v hat)).trans ?_
    simpa [handed,List.zipIdx_cons] using hrest

end Broadcast
end Daccord
