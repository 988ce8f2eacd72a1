import Mathlib.Data.Prod.Lex
import Mathlib.Data.String.Basic
import Mathlib.Data.List.AList
import Mathlib.Data.Finset.Card
import Mathlib.Tactic

/-! Identities, wire messages and the outgoing queue shared by both protocols
(`config.rs`, `error.rs`, `message/`, `protocol/mod.rs`). Rounds, terms, slots and indexes
are `u64` in the source and natural numbers here; instants are milliseconds. -/
namespace Daccord

/-- Name plus incarnation; ordered by name first, as `#[derive(Ord)]` does. -/
structure NodeId where
  name : String
  incarnation : ℕ
  deriving DecidableEq, Repr

def NodeId.key (i : NodeId) : String ×ₗ ℕ := toLex (i.name,i.incarnation)

theorem NodeId.key_injective : Function.Injective NodeId.key := by
  rintro ⟨a,b⟩ ⟨c,d⟩ h
  simp only [NodeId.key,EmbeddingLike.apply_eq_iff_eq,Prod.mk.injEq] at h
  simp [h]

instance : LinearOrder NodeId := LinearOrder.lift' NodeId.key NodeId.key_injective

/-- `(round, node)` compared lexicographically. -/
abbrev ProposalNumber := ℕ ×ₗ NodeId

abbrev ProposalNumber.mk (round : ℕ) (node : NodeId) : ProposalNumber := toLex (round,node)

def ProposalNumber.round (pn : ProposalNumber) : ℕ := (ofLex pn).1
def ProposalNumber.node (pn : ProposalNumber) : NodeId := (ofLex pn).2

@[simp] theorem ProposalNumber.round_mk (r : ℕ) (i : NodeId) : (mk r i).round = r := rfl
@[simp] theorem ProposalNumber.node_mk (r : ℕ) (i : NodeId) : (mk r i).node = i := rfl

theorem ProposalNumber.lt_of_round {a b : ProposalNumber} (h : a.round < b.round) : a < b :=
  Prod.Lex.lt_iff.mpr (Or.inl h)

theorem ProposalNumber.mk_le {r s : ℕ} {i : NodeId} (h : r ≤ s) : mk r i ≤ mk s i :=
  Prod.Lex.toLex_mono ⟨h,le_rfl⟩

inductive SendTarget
  | peer (id : NodeId)
  | broadcast
  deriving DecidableEq, Repr

structure Outgoing (M : Type) where
  target : SendTarget
  message : M
  deriving DecidableEq, Repr

structure Decision (V : Type) where
  slot : ℕ
  value : V
  deriving DecidableEq, Repr

structure LogEntry (V : Type) where
  term : ℕ
  value : V
  deriving DecidableEq, Repr

inductive RaftMessage (V : Type)
  | requestVote (term : ℕ) (candidate : NodeId) (lastLogIndex : Option ℕ) (lastLogTerm : ℕ)
  | requestVoteResponse (term : ℕ) (voteGranted : Bool)
  | appendEntries (term : ℕ) (leader : NodeId) (prevLogIndex : Option ℕ) (prevLogTerm : ℕ)
      (entries : List (LogEntry V)) (leaderCommit : Option ℕ)
  | appendEntriesResponse (term : ℕ) (success : Bool)
      (matchIndex conflictTerm conflictIndex : Option ℕ)
  | forward (value : V) (hops : ℕ)
  deriving DecidableEq, Repr

def maxForwardHops : ℕ := 3

/-- The last five variants exist only in the `multi-paxos` build. -/
inductive PaxosMessage (V : Type)
  | prepare (slot : ℕ) (proposalNumber : ProposalNumber)
  | promise (slot : ℕ) (proposalNumber : ProposalNumber) (accepted : Option (ProposalNumber × V))
  | accept (slot : ℕ) (proposalNumber : ProposalNumber) (value : V)
  | accepted (slot : ℕ) (proposalNumber : ProposalNumber) (value : V)
  | decide (slot : ℕ) (value : V)
  | nackPrepare (slot : ℕ) (proposalNumber highestPromised : ProposalNumber)
  | nackAccept (slot : ℕ) (proposalNumber highestPromised : ProposalNumber)
  | forward (value : V)
  | heartbeat (term : ℕ)
  | prepareLeader (proposalNumber : ProposalNumber) (sinceSlot : ℕ)
  | promiseLeader (proposalNumber : ProposalNumber) (accepted : List (ℕ × ProposalNumber × V))
  | nackLeader (proposalNumber highestPromised : ProposalNumber)
  deriving DecidableEq

inductive StorageError
  | persist (reason : String)
  | load (reason : String)
  deriving DecidableEq, Repr

/-- What one call reads from the outside: the clock, and the random draws of
the timeout samplers (`Instant::now()` and `rand`). -/
structure Env where
  now : ℕ
  rand : ℕ
  deriving DecidableEq, Repr

/-- The envelope `NodeHandle::propose` puts around a user value. -/
structure Pending (V : Type) where
  nonce : ℕ
  value : V
  deriving DecidableEq, Repr

section
variable {E V : Type} [DecidableEq V] (value : E → V)

/-- `PendingMap::remove_for_decision` of `node.rs`, for entries with any further data: what
is left of the map, and the entry found with its nonce. A hash map has no order of its
own: of several entries with the value of a recovered decision, `pick` says which one is
found first. -/
def removeForDecision (m : AList fun _ : ℕ => E) (pick : ℕ) (p : Pending V) :
    (AList fun _ : ℕ => E) × Option (ℕ × E) :=
  let found :=
    if p.nonce ≠ 0 then some p.nonce
    else
      let matching := (m.entries.filter fun e => value e.2 = p.value).map Sigma.fst
      matching[pick % matching.length]?
  match found with
  | some nonce => (m.erase nonce,(m.lookup nonce).map fun e => (nonce,e))
  | none => (m,none)

/-- The entry found is one with the nonce of the decision, or, for a recovered decision,
one with its value. -/
theorem removeForDecision_cases (m : AList fun _ : ℕ => E) (pick : ℕ) (p : Pending V) :
    removeForDecision value m pick p = (m,none) ∨
    ∃ n e, m.lookup n = some e ∧ removeForDecision value m pick p = (m.erase n,some (n,e)) ∧
      (p.nonce ≠ 0 ∧ n = p.nonce ∨ p.nonce = 0 ∧ value e = p.value) := by
  by_cases hp : p.nonce ≠ 0
  · have heq : removeForDecision value m pick p =
        (m.erase p.nonce,(m.lookup p.nonce).map fun e => (p.nonce,e)) := by
      simp [removeForDecision,hp]
    cases h : m.lookup p.nonce with
    | none =>
      have hsame : m.erase p.nonce = m :=
        AList.ext (List.kerase_of_notMem_keys (AList.lookup_eq_none.mp h))
      rw [heq,h,hsame]
      exact Or.inl rfl
    | some e =>
      rw [heq,h]
      exact Or.inr ⟨p.nonce,e,h,rfl,Or.inl ⟨hp,rfl⟩⟩
  · set matching := (m.entries.filter fun e => value e.2 = p.value).map Sigma.fst with hm
    cases hf : matching[pick % matching.length]? with
    | none => exact Or.inl (by simp [removeForDecision,hp,← hm,hf])
    | some n =>
      have heq : removeForDecision value m pick p =
          (m.erase n,(m.lookup n).map fun e => (n,e)) := by
        simp [removeForDecision,hp,← hm,hf]
      obtain ⟨⟨k,e⟩,he,rfl⟩ := List.mem_map.mp (List.mem_of_getElem? hf)
      obtain ⟨hin,hval⟩ := List.mem_filter.mp he
      have hlook : m.lookup k = some e := AList.mem_lookup_iff.mpr hin
      rw [heq,hlook]
      exact Or.inr ⟨k,e,hlook,rfl,Or.inr ⟨not_not.mp hp,of_decide_eq_true hval⟩⟩

end

end Daccord
