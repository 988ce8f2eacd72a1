import Mathlib.Data.Finset.Card
import Mathlib.Data.Fintype.Card
import Mathlib.Tactic

/-! Runs of labelled transition functions, additions on machine words, and
majorities of a finite set. They are used as a small library: nothing here
mentions a protocol. -/
namespace Daccord
namespace Runs

variable {S L : Type*}

/-- States reached from `init` by steps that all meet the side condition `ok`
on the state before the step and its label. -/
inductive Reaches (step : S → L → Option S) (ok : S → L → Prop) (init : S) : S → Prop
  | start : Reaches step ok init init
  | next {s s' : S} {l : L} : Reaches step ok init s → ok s l → step s l = some s' →
      Reaches step ok init s'

/-- What holds initially and is kept by every step holds in every reached state. -/
theorem Reaches.invariant {step : S → L → Option S} {ok : S → L → Prop} {init s : S}
    (inv : S → Prop) (h0 : inv init)
    (hstep : ∀ s l s', Reaches step ok init s → inv s → ok s l → step s l = some s' → inv s')
    (h : Reaches step ok init s) : inv s := by
  induction h with
  | start => exact h0
  | next hr hok hs ih => exact hstep _ _ _ hr ih hok hs

theorem Reaches.weaken {step : S → L → Option S} {ok ok' : S → L → Prop} {init s : S}
    (hok : ∀ s l, ok s l → ok' s l) (h : Reaches step ok init s) :
    Reaches step ok' init s := by
  induction h with
  | start => exact .start
  | next _ hl hs ih => exact .next ih (hok _ _ hl) hs

theorem Reaches.trans {step : S → L → Option S} {ok : S → L → Prop} {init s t : S}
    (h : Reaches step ok init s) (h' : Reaches step ok s t) : Reaches step ok init t := by
  induction h' with
  | start => exact h
  | next _ hl hs ih => exact .next ih hl hs

/-- A map that takes every step to a run takes runs to runs. -/
theorem Reaches.map {T K : Type*} {step : S → L → Option S} {ok : S → L → Prop}
    {step' : T → K → Option T} {ok' : T → K → Prop} (f : S → T) {init s : S}
    (hstep : ∀ s l s', ok s l → step s l = some s' → Reaches step' ok' (f s) (f s'))
    (h : Reaches step ok init s) : Reaches step' ok' (f init) (f s) := by
  induction h with
  | start => exact .start
  | next _ hl hs ih => exact ih.trans (hstep _ _ _ hl hs)

/-- The same with the labels of the run, oldest first. -/
inductive Trace (step : S → L → Option S) (ok : S → L → Prop) (init : S) : List L → S → Prop
  | start : Trace step ok init [] init
  | next {s s' : S} {l : L} {ls : List L} : Trace step ok init ls s → ok s l →
      step s l = some s' → Trace step ok init (ls ++ [l]) s'

/-- A run takes the steps it is labelled with. -/
theorem Trace.reaches {step : S → L → Option S} {ok : S → L → Prop} {init s : S} {ls : List L}
    (h : Trace step ok init ls s) : Reaches step (fun s l => ok s l ∧ l ∈ ls) init s := by
  induction h with
  | start => exact .start
  | next _ hl hs ih =>
    refine .next (ih.weaken fun s l hl => hl.imp_right (List.mem_append_left _)) ⟨hl,?_⟩ hs
    exact List.mem_append_right _ (List.mem_singleton.mpr rfl)

/-- What holds initially and is kept by every step may speak of the number of
steps taken. -/
theorem Trace.counted {step : S → L → Option S} {ok : S → L → Prop} {init s : S} {ls : List L}
    (inv : ℕ → S → Prop) (h0 : inv 0 init)
    (hstep : ∀ n s l s', inv n s → ok s l → step s l = some s' → inv (n + 1) s')
    (h : Trace step ok init ls s) : inv ls.length s := by
  induction h with
  | start => exact h0
  | next _ hl hs ih =>
    rw [List.length_append,List.length_singleton]
    exact hstep _ _ _ _ ih hl hs

/-- Execute a list of labels; a label that is not enabled or does not meet the
side condition stops the run. -/
def exec (step : S → L → Option S) (ok : S → L → Prop) [∀ s l, Decidable (ok s l)] :
    S → List L → Option S
  | s, [] => some s
  | s, l :: ls => if ok s l then (step s l).bind fun s' => exec step ok s' ls else none

theorem exec_trace {step : S → L → Option S} {ok : S → L → Prop} [∀ s l, Decidable (ok s l)]
    {init s s' : S} {past ls : List L} (hr : Trace step ok init past s)
    (he : exec step ok s ls = some s') : Trace step ok init (past ++ ls) s' := by
  induction ls generalizing s past with
  | nil =>
    have h : s = s' := by simpa [exec] using he
    rw [List.append_nil]
    exact h ▸ hr
  | cons l ls ih =>
    rw [exec] at he
    split at he
    · rename_i hl
      obtain ⟨t,ht,he⟩ := Option.bind_eq_some_iff.mp he
      have hall := ih (.next hr hl ht) he
      rwa [List.append_assoc] at hall
    · cases he

theorem exec_reaches {step : S → L → Option S} {ok : S → L → Prop} [∀ s l, Decidable (ok s l)]
    {init s s' : S} {ls : List L} (hr : Reaches step ok init s)
    (he : exec step ok s ls = some s') : Reaches step ok init s' :=
  hr.trans ((exec_trace .start he).reaches.weaken fun _ _ => And.left)

def after (step : S → L → Option S) (ok : S → L → Prop) [∀ s l, Decidable (ok s l)] (s : S)
    (ls : List L) (h : (exec step ok s ls).isSome = true) : S :=
  (exec step ok s ls).get h

theorem after_reaches {step : S → L → Option S} {ok : S → L → Prop} [∀ s l, Decidable (ok s l)]
    {init s : S} {ls : List L} (hr : Reaches step ok init s)
    (h : (exec step ok s ls).isSome = true) : Reaches step ok init (after step ok s ls h) :=
  exec_reaches hr (Option.some_get h).symm

theorem after_trace {step : S → L → Option S} {ok : S → L → Prop} [∀ s l, Decidable (ok s l)]
    {s : S} {ls : List L} (h : (exec step ok s ls).isSome = true) :
    Trace step ok s ls (after step ok s ls h) :=
  exec_trace .start (Option.some_get h).symm

end Runs

/-- What a build does with a sum that does not fit into 64 bits: `dev` panics,
`release` wraps around. -/
inductive Profile
  | dev | release
  deriving DecidableEq, Repr

/-- `n + 1` on `u64`. -/
def Profile.succ : Profile → ℕ → Option ℕ
  | .dev, n => if n + 1 < 2 ^ 64 then some (n + 1) else none
  | .release, n => some ((n + 1) % 2 ^ 64)

theorem Profile.succ_of_lt (k : Profile) {n : ℕ} (h : n + 1 < 2 ^ 64) :
    k.succ n = some (n + 1) := by
  cases k with
  | dev => exact if_pos h
  | release => exact congrArg some (Nat.mod_eq_of_lt h)

def Majority {ι : Type*} [Fintype ι] (Q : Finset ι) : Prop :=
  Fintype.card ι < 2 * Q.card

theorem Majority.inter {ι : Type*} [Fintype ι] [DecidableEq ι] {Q R : Finset ι}
    (hQ : Majority Q) (hR : Majority R) : ∃ i, i ∈ Q ∧ i ∈ R := by
  have hu : (Q ∪ R).card ≤ Fintype.card ι := Finset.card_le_univ _
  have hs : (Q ∪ R).card + (Q ∩ R).card = Q.card + R.card := Finset.card_union_add_card_inter Q R
  have hp : 0 < (Q ∩ R).card := by
    unfold Majority at hQ hR
    omega
  obtain ⟨i,hi⟩ := Finset.card_pos.mp hp
  exact ⟨i,Finset.mem_inter.mp hi⟩

end Daccord
