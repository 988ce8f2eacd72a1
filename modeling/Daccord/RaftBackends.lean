import Daccord.RaftNode
import Daccord.Tables

/-! The three implementations of `RaftStorage`: in memory, on redb and on DuckDB.
Tables are ordered maps and every transaction commits. After any sequence of
calls the three load the same. -/
namespace Daccord
namespace Raft

variable {V : Type}

/-- `serde_json` for the type of values. -/
structure Codec (V : Type) where
  encode : V → String
  decode : String → Except String V
  decode_encode : ∀ v, decode (encode v) = .ok v

namespace Codec
variable (C : Codec V)

def read (raw : String) : Except StorageError V :=
  (C.decode raw).mapError .load

def serialized (entries : List (LogEntry V)) : List (ℕ × String) :=
  entries.map fun e => (e.term,C.encode e.value)

def readLog (rows : List (ℕ × String)) : Except StorageError (List (LogEntry V)) :=
  rows.mapM fun r => do
    let value ← C.read r.2
    return ⟨r.1,value⟩

def readDecisions (rows : List (ℕ × String)) : Except StorageError (List (ℕ × V)) :=
  rows.mapM fun r => do
    let value ← C.read r.2
    return (r.1,value)

end Codec

structure Loads (V : Type) where
  term : Except StorageError ℕ
  votedFor : Except StorageError (Option NodeId)
  log : Except StorageError (List (LogEntry V))
  commitIndex : Except StorageError (Option ℕ)
  decisions : Except StorageError (List (ℕ × V))

/-- The same results, the decisions in any order. -/
structure Loads.Same (a b : Loads V) : Prop where
  term : a.term = b.term
  votedFor : a.votedFor = b.votedFor
  log : a.log = b.log
  commitIndex : a.commitIndex = b.commitIndex
  decisions : ∃ xs ys, a.decisions = .ok xs ∧ b.decisions = .ok ys ∧ ∀ d, d ∈ xs ↔ d ∈ ys

/-- `RaftMemoryStorage`. -/
def RaftStorage.loads (s : RaftStorage V) : Loads V where
  term := .ok s.term
  votedFor := .ok s.votedFor
  log := .ok s.log
  commitIndex := .ok s.commitIndex
  decisions := .ok s.loadDecisions

structure RedbRaftStorage where
  decisions : Std.TreeMap ℕ String
  log : Std.TreeMap ℕ (ℕ × String)
  term : Std.TreeMap String ℕ
  votedFor : Std.TreeMap String (String × ℕ)
  commitIndex : Std.TreeMap String ℕ

namespace RedbRaftStorage

def metaKey : String := "k"

def openInMemory : RedbRaftStorage := ⟨∅,∅,∅,∅,∅⟩

def saveDecision (C : Codec V) (s : RedbRaftStorage) (slot : ℕ) (value : V) : RedbRaftStorage :=
  { s with decisions := s.decisions.insert slot (C.encode value) }

def saveTerm (s : RedbRaftStorage) (term : ℕ) : RedbRaftStorage :=
  { s with term := s.term.insert metaKey term }

def saveVotedFor (s : RedbRaftStorage) : Option NodeId → RedbRaftStorage
  | some id => { s with votedFor := s.votedFor.insert metaKey (id.name,id.incarnation) }
  | none => { s with votedFor := s.votedFor.erase metaKey }

def appendLog (C : Codec V) (s : RedbRaftStorage) (entries : List (LogEntry V)) : RedbRaftStorage :=
  let serialized := C.serialized entries
  if serialized.isEmpty then s
  else { s with log := Tables.insertAll s.log (Tables.nextKey s.log) serialized }

def truncateLogFrom (s : RedbRaftStorage) (index : ℕ) : RedbRaftStorage :=
  -- `extract_from_if(index.., |_, _| true)`
  { s with log := s.log.filter fun k _ => decide (k < index) }

def saveCommitIndex (s : RedbRaftStorage) : Option ℕ → RedbRaftStorage
  | some n => { s with commitIndex := s.commitIndex.insert metaKey n }
  | none => { s with commitIndex := s.commitIndex.erase metaKey }

def call (C : Codec V) (s : RedbRaftStorage) : StorageCall V → RedbRaftStorage
  | .saveTerm term => s.saveTerm term
  | .saveVotedFor votedFor => s.saveVotedFor votedFor
  | .truncateLogFrom index => s.truncateLogFrom index
  | .appendLog entries => s.appendLog C entries
  | .saveCommitIndex commitIndex => s.saveCommitIndex commitIndex
  | .saveDecision slot value => s.saveDecision C slot value

def loads (C : Codec V) (s : RedbRaftStorage) : Loads V where
  term := .ok (s.term[metaKey]?.getD 0)
  votedFor := .ok (s.votedFor[metaKey]?.map fun v => ⟨v.1,v.2⟩)
  log := C.readLog (s.log.toList.map Prod.snd)
  commitIndex := .ok s.commitIndex[metaKey]?
  decisions := C.readDecisions s.decisions.toList

end RedbRaftStorage

structure RaftMeta where
  term : ℕ
  votedForName : Option String
  votedForIncarnation : Option ℕ
  commitIndex : Option ℕ

structure DuckdbRaftStorage where
  decisions : Std.TreeMap ℕ String
  raftMeta : Std.TreeMap ℕ RaftMeta
  log : Std.TreeMap ℕ (ℕ × String)

namespace DuckdbRaftStorage

/-- The schema and its seed row. -/
def openInMemory : DuckdbRaftStorage :=
  ⟨∅,(∅ : Std.TreeMap ℕ RaftMeta).insertIfNew 0 ⟨0,none,none,none⟩,∅⟩

/-- `UPDATE raft_meta SET … WHERE id = 0`. -/
def updateMeta (s : DuckdbRaftStorage) (set : RaftMeta → RaftMeta) : DuckdbRaftStorage :=
  { s with raftMeta := s.raftMeta.modify 0 set }

/-- `SELECT … FROM raft_meta WHERE id = 0`, with the driver's error for no row. -/
def selectMeta {α : Type} (s : DuckdbRaftStorage) (columns : RaftMeta → α) : Except StorageError α :=
  match s.raftMeta[0]? with
  | some row => .ok (columns row)
  | none => .error (.load "Query returned no rows")

/-- `INSERT INTO raft_log`, with the driver's error for a key that is taken. -/
def insertRow (log : Std.TreeMap ℕ (ℕ × String)) (index : ℕ) (row : ℕ × String) :
    Except StorageError (Std.TreeMap ℕ (ℕ × String)) :=
  if log.contains index then .error (.persist "Constraint Error: Duplicate key")
  else .ok (log.insert index row)

def saveDecision (C : Codec V) (s : DuckdbRaftStorage) (slot : ℕ) (value : V) : DuckdbRaftStorage :=
  { s with decisions := s.decisions.insert slot (C.encode value) }

def saveTerm (s : DuckdbRaftStorage) (term : ℕ) : DuckdbRaftStorage :=
  s.updateMeta fun row => { row with term := term }

def saveVotedFor (s : DuckdbRaftStorage) (votedFor : Option NodeId) : DuckdbRaftStorage :=
  s.updateMeta fun row => { row with
    votedForName := votedFor.map NodeId.name
    votedForIncarnation := votedFor.map NodeId.incarnation }

def appendLog (C : Codec V) (s : DuckdbRaftStorage) (entries : List (LogEntry V)) :
    Except StorageError DuckdbRaftStorage :=
  let serialized := C.serialized entries
  if serialized.isEmpty then .ok s
  else do
    -- `COALESCE(MAX(log_index) + 1, 0)`
    let nextIndex := Tables.nextKey s.log
    let log ← (serialized.zipIdx nextIndex).foldlM (fun log r => insertRow log r.2 r.1) s.log
    return { s with log := log }

def truncateLogFrom (s : DuckdbRaftStorage) (index : ℕ) : DuckdbRaftStorage :=
  -- `DELETE FROM raft_log WHERE log_index >= ?`
  { s with log := s.log.filter fun k _ => decide (k < index) }

def saveCommitIndex (s : DuckdbRaftStorage) (commitIndex : Option ℕ) : DuckdbRaftStorage :=
  s.updateMeta fun row => { row with commitIndex := commitIndex }

def call (C : Codec V) (s : DuckdbRaftStorage) :
    StorageCall V → Except StorageError DuckdbRaftStorage
  | .saveTerm term => .ok (s.saveTerm term)
  | .saveVotedFor votedFor => .ok (s.saveVotedFor votedFor)
  | .truncateLogFrom index => .ok (s.truncateLogFrom index)
  | .appendLog entries => s.appendLog C entries
  | .saveCommitIndex commitIndex => .ok (s.saveCommitIndex commitIndex)
  | .saveDecision slot value => .ok (s.saveDecision C slot value)

def loadVotedFor (s : DuckdbRaftStorage) : Except StorageError (Option NodeId) := do
  let row ← s.selectMeta fun row => (row.votedForName,row.votedForIncarnation)
  match row with
  | (some name,some inc) => .ok (some ⟨name,inc⟩)
  | (none,none) => .ok none
  | (some _,none) | (none,some _) =>
    .error (.load "raft_meta.voted_for_name and voted_for_incarnation are inconsistent")

def loads (C : Codec V) (s : DuckdbRaftStorage) : Loads V where
  term := s.selectMeta RaftMeta.term
  votedFor := s.loadVotedFor
  log := C.readLog (s.log.toList.map Prod.snd)
  commitIndex := s.selectMeta RaftMeta.commitIndex
  decisions := C.readDecisions s.decisions.toList

end DuckdbRaftStorage

/-! What the tables of the two databases have in common. -/

section
variable {C : Codec V}

theorem Codec.read_encode (C : Codec V) (v : V) : C.read (C.encode v) = .ok v := by
  rw [Codec.read,C.decode_encode]
  rfl

theorem Codec.encode_injective (C : Codec V) : Function.Injective C.encode := by
  intro v w h
  have := C.decode_encode v
  rw [h,C.decode_encode] at this
  exact (Except.ok.inj this).symm

theorem Codec.readLog_serialized (C : Codec V) (log : List (LogEntry V)) :
    C.readLog (C.serialized log) = .ok log := by
  induction log with
  | nil => rfl
  | cons e log ih =>
    rw [Codec.readLog,Codec.serialized] at ih
    rw [Codec.readLog,Codec.serialized,List.map_cons,List.mapM_cons,ih,C.read_encode]
    rfl

theorem Codec.readDecisions_encoded (C : Codec V) {rows : List (ℕ × String)}
    (h : ∀ r ∈ rows, ∃ v, r.2 = C.encode v) :
    ∃ ds, C.readDecisions rows = .ok ds ∧ rows = ds.map fun d => (d.1,C.encode d.2) := by
  induction rows with
  | nil => exact ⟨[],rfl,rfl⟩
  | cons r rows ih =>
    obtain ⟨v,hv⟩ := h r List.mem_cons_self
    obtain ⟨ds,hread,hrows⟩ := ih fun r hr => h r (List.mem_cons_of_mem _ hr)
    refine ⟨(r.1,v) :: ds,?_,by rw [List.map_cons,← hrows,← hv]⟩
    rw [Codec.readDecisions] at hread ⊢
    rw [List.mapM_cons,hread,hv,C.read_encode]
    rfl

def Encodes (C : Codec V) (t : Std.TreeMap ℕ String) (decisions : AList fun _ : ℕ => V) : Prop :=
  ∀ slot : ℕ, t[slot]? = (decisions.lookup slot).map C.encode

theorem Encodes.insert {t : Std.TreeMap ℕ String} {decisions : AList fun _ : ℕ => V}
    (h : Encodes C t decisions) (slot : ℕ) (value : V) :
    Encodes C (t.insert slot (C.encode value)) (decisions.insert slot value) := by
  intro k
  rw [Std.TreeMap.getElem?_insert]
  by_cases hk : slot = k
  · subst hk
    rw [AList.lookup_insert]
    simp
  · rw [AList.lookup_insert_ne (Ne.symm hk),← h k]
    simp [hk]

theorem Encodes.load {t : Std.TreeMap ℕ String} {s : RaftStorage V} (h : Encodes C t s.decisions) :
    ∃ xs ys, C.readDecisions t.toList = .ok xs ∧ s.loads.decisions = .ok ys ∧
      ∀ d, d ∈ xs ↔ d ∈ ys := by
  have hrows : ∀ r ∈ t.toList, ∃ v, r.2 = C.encode v := by
    rintro ⟨k,raw⟩ hr
    rw [Std.TreeMap.mem_toList_iff_getElem?_eq_some,h k,Option.map_eq_some_iff] at hr
    obtain ⟨v,_,hv⟩ := hr
    exact ⟨v,hv.symm⟩
  obtain ⟨ds,hread,heq⟩ := C.readDecisions_encoded hrows
  refine ⟨ds,_,hread,rfl,?_⟩
  rintro ⟨k,v⟩
  calc (k,v) ∈ ds ↔ (k,C.encode v) ∈ t.toList := by
        rw [heq,List.mem_map]
        constructor
        · exact fun hd => ⟨(k,v),hd,rfl⟩
        · rintro ⟨⟨k',v'⟩,hd,he⟩
          obtain ⟨rfl,hv⟩ := Prod.mk.inj he
          exact C.encode_injective hv ▸ hd
    _ ↔ s.decisions.lookup k = some v := by
        rw [Std.TreeMap.mem_toList_iff_getElem?_eq_some,h k,Option.map_eq_some_iff]
        constructor
        · rintro ⟨w,hw,he⟩
          exact C.encode_injective he ▸ hw
        · exact fun hw => ⟨v,hw,rfl⟩
    _ ↔ (k,v) ∈ s.loadDecisions := by
        rw [RaftStorage.loadDecisions,List.mem_map,← Option.mem_def,AList.mem_lookup_iff]
        constructor
        · exact fun hd => ⟨⟨k,v⟩,hd,rfl⟩
        · rintro ⟨⟨k',v'⟩,hd,he⟩
          obtain ⟨rfl,rfl⟩ := Prod.mk.inj he
          exact hd

theorem Codec.rows_append {t : Std.TreeMap ℕ (ℕ × String)} {log : List (LogEntry V)}
    (h : Tables.Rows t (C.serialized log)) (es : List (LogEntry V)) :
    Tables.Rows (Tables.insertAll t (Tables.nextKey t) (C.serialized es))
      (C.serialized (log ++ es)) := by
  have hsplit : C.serialized (log ++ es) = C.serialized log ++ C.serialized es := List.map_append
  rw [h.nextKey_eq,hsplit]
  exact h.insertAll _

theorem Codec.rows_append_nil {t : Std.TreeMap ℕ (ℕ × String)} {log : List (LogEntry V)}
    (h : Tables.Rows t (C.serialized log)) : Tables.Rows t (C.serialized (log ++ [])) := by
  rwa [List.append_nil]

theorem Codec.rows_take {t : Std.TreeMap ℕ (ℕ × String)} {log : List (LogEntry V)}
    (h : Tables.Rows t (C.serialized log)) (index : ℕ) :
    Tables.Rows (t.filter fun k _ => decide (k < index)) (C.serialized (log.take index)) := by
  have htake : C.serialized (log.take index) = (C.serialized log).take index := List.map_take
  rw [htake]
  exact h.filter_lt index

structure RedbRaftStorage.Holds (C : Codec V) (r : RedbRaftStorage) (s : RaftStorage V) : Prop where
  decisions : Encodes C r.decisions s.decisions
  log : Tables.Rows r.log (C.serialized s.log)
  term : r.term[metaKey]?.getD 0 = s.term
  votedFor : r.votedFor[metaKey]? = s.votedFor.map fun id => (id.name,id.incarnation)
  commitIndex : r.commitIndex[metaKey]? = s.commitIndex

theorem RedbRaftStorage.Holds.start : Holds C openInMemory RaftStorage.new where
  decisions _ := by simp [openInMemory,RaftStorage.new]
  log := .empty
  term := by simp [openInMemory,RaftStorage.new]
  votedFor := by simp [openInMemory,RaftStorage.new]
  commitIndex := by simp [openInMemory,RaftStorage.new]

theorem RedbRaftStorage.Holds.call {r : RedbRaftStorage} {s : RaftStorage V} (h : Holds C r s)
    (c : StorageCall V) : Holds C (r.call C c) (s.call c) := by
  cases c with
  | saveTerm term => exact { h with term := by simp [RedbRaftStorage.call,saveTerm,RaftStorage.call] }
  | saveVotedFor votedFor =>
    cases votedFor with
    | none => exact { h with votedFor := Std.TreeMap.getElem?_erase_self }
    | some id => exact { h with votedFor := Std.TreeMap.getElem?_insert_self }
  | truncateLogFrom index => exact { h with log := Codec.rows_take h.log index }
  | appendLog entries =>
    cases entries with
    | nil => exact { h with log := Codec.rows_append_nil h.log }
    | cons e es => exact { h with log := Codec.rows_append h.log (e :: es) }
  | saveCommitIndex commitIndex =>
    cases commitIndex with
    | none => exact { h with commitIndex := Std.TreeMap.getElem?_erase_self }
    | some n => exact { h with commitIndex := Std.TreeMap.getElem?_insert_self }
  | saveDecision slot value => exact { h with decisions := h.decisions.insert slot value }

theorem RedbRaftStorage.Holds.loads {r : RedbRaftStorage} {s : RaftStorage V} (h : Holds C r s) :
    (r.loads C).Same s.loads where
  term := congrArg Except.ok h.term
  votedFor := by
    change Except.ok (r.votedFor[metaKey]?.map fun v => (⟨v.1,v.2⟩ : NodeId)) = .ok s.votedFor
    rw [h.votedFor]
    cases s.votedFor <;> rfl
  log := by
    change C.readLog (r.log.toList.map Prod.snd) = .ok s.log
    rw [h.log.values_eq,C.readLog_serialized]
  commitIndex := congrArg Except.ok h.commitIndex
  decisions := h.decisions.load

structure DuckdbRaftStorage.Holds (C : Codec V) (d : DuckdbRaftStorage) (s : RaftStorage V) :
    Prop where
  decisions : Encodes C d.decisions s.decisions
  log : Tables.Rows d.log (C.serialized s.log)
  row : d.raftMeta[0]? = some ⟨s.term,s.votedFor.map NodeId.name,s.votedFor.map NodeId.incarnation,
    s.commitIndex⟩

theorem DuckdbRaftStorage.Holds.start : Holds C openInMemory RaftStorage.new where
  decisions _ := by simp [openInMemory,RaftStorage.new]
  log := .empty
  row := by
    rw [openInMemory,Std.TreeMap.getElem?_insertIfNew]
    simp [RaftStorage.new]

theorem DuckdbRaftStorage.insertRow_all {t : Std.TreeMap ℕ (ℕ × String)} {l : List (ℕ × String)}
    (h : Tables.Rows t l) (rows : List (ℕ × String)) :
    (rows.zipIdx l.length).foldlM (fun log r => insertRow log r.2 r.1) t =
      .ok (Tables.insertAll t l.length rows) := by
  induction rows generalizing t l with
  | nil => rfl
  | cons a rows ih =>
    have hfree : t.contains l.length = false := by
      rw [← Bool.not_eq_true,Std.TreeMap.contains_iff_mem,h.mem]
      exact lt_irrefl _
    have hrest := ih (h.insert a)
    rw [List.length_append,List.length_singleton] at hrest
    rw [List.zipIdx_cons,List.foldlM_cons,insertRow,hfree]
    exact hrest

theorem DuckdbRaftStorage.Holds.updated {d : DuckdbRaftStorage} {s : RaftStorage V} (h : Holds C d s)
    (set : RaftMeta → RaftMeta) : (d.updateMeta set).raftMeta[0]? =
      some (set ⟨s.term,s.votedFor.map NodeId.name,s.votedFor.map NodeId.incarnation,
        s.commitIndex⟩) := by
  rw [updateMeta,Std.TreeMap.getElem?_modify,h.row]
  simp

theorem DuckdbRaftStorage.Holds.call {d : DuckdbRaftStorage} {s : RaftStorage V} (h : Holds C d s)
    (c : StorageCall V) : ∃ d', d.call C c = .ok d' ∧ Holds C d' (s.call c) := by
  cases c with
  | saveTerm term => exact ⟨_,rfl,{ h with row := h.updated _ }⟩
  | saveVotedFor votedFor => exact ⟨_,rfl,{ h with row := h.updated _ }⟩
  | truncateLogFrom index => exact ⟨_,rfl,{ h with log := Codec.rows_take h.log index }⟩
  | appendLog entries =>
    cases entries with
    | nil => exact ⟨d,rfl,{ h with log := Codec.rows_append_nil h.log }⟩
    | cons e es =>
      have hrows := Codec.rows_append h.log (e :: es)
      rw [h.log.nextKey_eq] at hrows
      let log := Tables.insertAll d.log (C.serialized s.log).length (C.serialized (e :: es))
      refine ⟨{ d with log := log },?_,{ h with log := hrows }⟩
      change (do
        let log ← ((C.serialized (e :: es)).zipIdx (Tables.nextKey d.log)).foldlM
          (fun log r => insertRow log r.2 r.1) d.log
        return { d with log := log }) = Except.ok _
      rw [h.log.nextKey_eq,insertRow_all h.log]
      rfl
  | saveCommitIndex commitIndex => exact ⟨_,rfl,{ h with row := h.updated _ }⟩
  | saveDecision slot value =>
    exact ⟨_,rfl,{ h with decisions := h.decisions.insert slot value }⟩

theorem DuckdbRaftStorage.Holds.loads {d : DuckdbRaftStorage} {s : RaftStorage V} (h : Holds C d s) :
    (d.loads C).Same s.loads where
  term := by
    change d.selectMeta RaftMeta.term = .ok s.term
    rw [selectMeta,h.row]
  votedFor := by
    change d.loadVotedFor = .ok s.votedFor
    rw [loadVotedFor,selectMeta,h.row]
    cases s.votedFor <;> rfl
  log := by
    change C.readLog (d.log.toList.map Prod.snd) = .ok s.log
    rw [h.log.values_eq,C.readLog_serialized]
  commitIndex := by
    change d.selectMeta RaftMeta.commitIndex = .ok s.commitIndex
    rw [selectMeta,h.row]
  decisions := h.decisions.load

end

/-- The three storages are interchangeable: after any sequence of calls all have
returned `Ok`, the databases load what the memory storage loads, and the keys of
their log tables are `0, …, n - 1`. -/
theorem backends_agree (C : Codec V) (calls : List (StorageCall V)) :
    ∃ d, calls.foldlM (DuckdbRaftStorage.call C) .openInMemory = .ok d ∧
      let r := calls.foldl (RedbRaftStorage.call C) .openInMemory
      let s := RaftStorage.new.calls calls
      (r.loads C).Same s.loads ∧ (d.loads C).Same s.loads ∧
        r.log.keys = List.range s.log.length ∧ d.log.keys = List.range s.log.length := by
  have hrun : ∀ (r : RedbRaftStorage) (d : DuckdbRaftStorage) (s : RaftStorage V),
      r.Holds C s → d.Holds C s → ∃ d', calls.foldlM (DuckdbRaftStorage.call C) d = .ok d' ∧
        (calls.foldl (RedbRaftStorage.call C) r).Holds C (s.calls calls) ∧
        d'.Holds C (s.calls calls) := by
    induction calls with
    | nil => exact fun r d s hr hd => ⟨d,rfl,hr,hd⟩
    | cons c calls ih =>
      intro r d s hr hd
      obtain ⟨d',hd',hheld⟩ := hd.call c
      rw [List.foldlM_cons,hd']
      exact ih (r.call C c) d' (s.call c) (hr.call c) hheld
  obtain ⟨d,hd,hr,hheld⟩ := hrun _ _ _ RedbRaftStorage.Holds.start DuckdbRaftStorage.Holds.start
  have hlen : ∀ log : List (LogEntry V), (C.serialized log).length = log.length :=
    fun log => List.length_map _
  refine ⟨d,hd,hr.loads,hheld.loads,?_,?_⟩
  · rw [hr.log.keys_eq,hlen]
  · rw [hheld.log.keys_eq,hlen]

def boolCodec : Codec Bool where
  encode b := if b then "true" else "false"
  decode
    | "true" => .ok true
    | "false" => .ok false
    | _ => .error "expected a boolean"
  decode_encode b := by cases b <;> rfl

/-- Two entries are replaced by one; the vote and the commit index are set and
cleared. -/
def backendCalls : List (StorageCall Bool) :=
  [.saveTerm 1,.saveVotedFor (some ⟨"a",1⟩),.appendLog [⟨1,true⟩,⟨1,false⟩,⟨1,true⟩],
    .saveCommitIndex (some 0),.saveDecision 0 true,.truncateLogFrom 1,.appendLog [],
    .appendLog [⟨2,true⟩],.saveVotedFor none,.saveCommitIndex none,.saveTerm 2]

theorem backends_agree_rewritten :
    ∃ d, backendCalls.foldlM (DuckdbRaftStorage.call boolCodec) .openInMemory = .ok d ∧
      let r := backendCalls.foldl (RedbRaftStorage.call boolCodec) .openInMemory
      (r.loads boolCodec).log = .ok [⟨1,true⟩,⟨2,true⟩] ∧
      (d.loads boolCodec).log = .ok [⟨1,true⟩,⟨2,true⟩] ∧
      (r.loads boolCodec).votedFor = .ok none ∧ (d.loads boolCodec).votedFor = .ok none ∧
      (r.loads boolCodec).commitIndex = .ok none ∧ (d.loads boolCodec).commitIndex = .ok none ∧
      (r.loads boolCodec).term = .ok 2 ∧ (d.loads boolCodec).term = .ok 2 ∧
      r.log.keys = [0,1] ∧ d.log.keys = [0,1] := by
  obtain ⟨d,hd,hr,hsame,hkeys,hkeys'⟩ := backends_agree boolCodec backendCalls
  exact ⟨d,hd,hr.log,hsame.log,hr.votedFor,hsame.votedFor,hr.commitIndex,hsame.commitIndex,
    hr.term,hsame.term,hkeys,hkeys'⟩

end Raft
end Daccord
