import Daccord.Watch

/-! `GetDecisions`: pages of the decision log. Pages requested one after the other,
each at the `next_index` of the one before, read what a watcher yields. -/
namespace Daccord
namespace Service

variable {V : Type}

def defaultGetLimit : ℕ := 1000

namespace DecisionLog

def collect (limit : ℕ) : List (Decision V) → ℕ → List (Decision V) → List (Decision V) × ℕ
  | [], nextSlot, out => (out,nextSlot)
  | d :: rest, nextSlot, out =>
    if limit ≤ out.length ∨ d.slot ≠ nextSlot then (out,nextSlot)
    else collect limit rest (saturatingSucc nextSlot) (out ++ [d])

/-- The entries are sorted, one for a slot, so `binary_search_by_key` returns the
position of the entry with this slot, if there is one. -/
def range (log : DecisionLog V) (startSlot limit : ℕ) : List (Decision V) × ℕ :=
  match log.entries.findIdx? fun d => d.slot = startSlot with
  | some start => collect limit (log.entries.drop start) startSlot []
  | none => ([],startSlot)

def getDecisions (log : DecisionLog V) (startIndex : ℕ) (limit : Option ℕ) :
    List (Decision V) × ℕ :=
  log.range startIndex ((limit.filter fun n => n ≠ 0).getD defaultGetLimit)

/-- Pages of one snapshot, each from where the last one ended. -/
def paging (log : DecisionLog V) : ℕ → List (Option ℕ) → List (List (Decision V))
  | _, [] => []
  | cursor, limit :: limits =>
    let page := log.getDecisions cursor limit
    page.1 :: log.paging page.2 limits

end DecisionLog

/-- The decisions are entries of `E` for the slots from `start` on. -/
def Stretch (E : List (Decision V)) (start : ℕ) (ds : List (Decision V)) : Prop :=
  ∀ i d, ds[i]? = some d → d ∈ E ∧ d.slot = start + i

section
variable {E E' : List (Decision V)} {start : ℕ} {ds ds' : List (Decision V)} {d : Decision V}

theorem Stretch.nil : Stretch E start [] := by
  intro i d hd
  cases hd

theorem Stretch.mono (h : Stretch E start ds) (hE : ∀ d ∈ E, d ∈ E') : Stretch E' start ds :=
  fun i d hd => (h i d hd).imp_left (hE d)

theorem Stretch.append (h : Stretch E start ds) (h' : Stretch E (start + ds.length) ds') :
    Stretch E start (ds ++ ds') := by
  intro i d hd
  by_cases hi : i < ds.length
  · rw [List.getElem?_append_left hi] at hd
    exact h i d hd
  · rw [List.getElem?_append_right (Nat.le_of_not_lt hi)] at hd
    obtain ⟨hE,hslot⟩ := h' _ d hd
    exact ⟨hE,by omega⟩

theorem Stretch.cons (hE : d ∈ E) (hslot : d.slot = start) (h : Stretch E (start + 1) ds) :
    Stretch E start (d :: ds) := by
  intro i e he
  cases i with
  | zero =>
    cases he
    exact ⟨hE,hslot⟩
  | succ i =>
    obtain ⟨hE,hslot⟩ := h i e he
    exact ⟨hE,by omega⟩

theorem Stretch.slots (h : Stretch E start ds) :
    ds.map Decision.slot = List.range' start ds.length := by
  refine List.ext_getElem (by simp) fun i hi hi' => ?_
  have hlen : i < ds.length := by simpa using hi
  simp [(h i _ (List.getElem?_eq_getElem hlen)).2]

theorem Stretch.length_le (h : Stretch E start ds) : ds.length ≤ E.length := by
  have hnodup : ds.Nodup := List.Nodup.of_map Decision.slot (h.slots ▸ List.nodup_range')
  refine (hnodup.subperm fun d hd => ?_).length_le
  obtain ⟨i,hi⟩ := List.mem_iff_getElem?.mp hd
  exact (h i d hi).1

/-- Two stretches from one slot that both end at a gap are the same. -/
theorem Stretch.eq_of_gap {log : DecisionLog V} (h : Stretch log.entries start ds)
    (h' : Stretch log.entries start ds') (hgap : ¬ log.Has (start + ds.length))
    (hgap' : ¬ log.Has (start + ds'.length)) : ds = ds' := by
  have hle : ∀ {a b : List (Decision V)}, Stretch log.entries start b →
      ¬ log.Has (start + a.length) → b.length ≤ a.length := by
    intro a b hb hgap
    by_contra hlt
    have hi : a.length < b.length := Nat.lt_of_not_le hlt
    exact hgap ⟨_,hb _ _ (List.getElem?_eq_getElem hi)⟩
  refine List.ext_getElem (Nat.le_antisymm (hle h hgap') (hle h' hgap)) fun i hi hi' => ?_
  obtain ⟨hE,hslot⟩ := h i _ (List.getElem?_eq_getElem hi)
  obtain ⟨hE',hslot'⟩ := h' i _ (List.getElem?_eq_getElem hi')
  exact log.eq_of_slot hE hE' (hslot.trans hslot'.symm)

end

namespace DecisionLog

variable {log : DecisionLog V} {cursor : ℕ}

theorem collect_spec (limit : ℕ) {l : List (Decision V)} (hmax : ∀ d ∈ l, d.slot < maxSlot)
    (nextSlot : ℕ) (out : List (Decision V)) : ∃ page, collect limit l nextSlot out =
      (out ++ page,nextSlot + page.length) ∧ Stretch l nextSlot page ∧
      (page = [] → out.length < limit → ∀ d ∈ l.head?, d.slot ≠ nextSlot) := by
  induction l generalizing nextSlot out with
  | nil => exact ⟨[],by simp [collect],.nil,by simp⟩
  | cons d rest ih =>
    rw [collect]
    split
    · rename_i hstop
      refine ⟨[],by simp,.nil,?_⟩
      rintro _ hlt e ⟨⟩
      exact hstop.resolve_left hlt.not_ge
    · rename_i hgo
      obtain ⟨_,hslot⟩ := not_or.mp hgo
      have hslot : d.slot = nextSlot := not_not.mp hslot
      have hnext : saturatingSucc nextSlot = nextSlot + 1 :=
        saturatingSucc_eq (hslot ▸ hmax d List.mem_cons_self)
      obtain ⟨page,heq,hpage,_⟩ := ih (fun e he => hmax e (List.mem_cons_of_mem _ he))
        (nextSlot + 1) (out ++ [d])
      refine ⟨d :: page,?_,?_,nofun⟩
      · rw [hnext,heq,List.append_assoc,List.length_cons,Nat.add_assoc,Nat.add_comm 1]
        rfl
      · exact .cons List.mem_cons_self hslot (hpage.mono fun e he => List.mem_cons_of_mem _ he)

/-- What one page holds; an empty one means that there is nothing at the cursor. -/
theorem getDecisions_spec (hmax : ∀ d ∈ log.entries, d.slot < maxSlot) (cursor : ℕ)
    (limit : Option ℕ) : ∃ page, log.getDecisions cursor limit = (page,cursor + page.length) ∧
      Stretch log.entries cursor page ∧ (page = [] → ¬ log.Has cursor) := by
  have hpos : 0 < (limit.filter fun n => n ≠ 0).getD defaultGetLimit := by
    cases limit with
    | none => exact (by decide : 0 < defaultGetLimit)
    | some n =>
      by_cases hn : n = 0
      · simp [Option.filter,hn,defaultGetLimit]
      · simp [Option.filter,hn]
        omega
  unfold getDecisions range
  generalize (limit.filter fun n => n ≠ 0).getD defaultGetLimit = size at hpos
  cases hfind : log.entries.findIdx? fun d => d.slot = cursor with
  | none =>
    refine ⟨[],rfl,.nil,fun _ => ?_⟩
    rintro ⟨d,hd,hslot⟩
    have hnone := List.findIdx?_eq_none_iff.mp hfind d hd
    simp [hslot] at hnone
  | some start =>
    have hdrop : ∀ d ∈ log.entries.drop start, d ∈ log.entries := fun d => List.mem_of_mem_drop
    obtain ⟨page,heq,hpage,hempty⟩ := collect_spec size (fun d hd => hmax d (hdrop d hd)) cursor []
    refine ⟨page,heq,hpage.mono hdrop,fun hnil => ?_⟩
    obtain ⟨hlt,hslot,_⟩ := List.findIdx?_eq_some_iff_getElem.mp hfind
    have hhead : (log.entries.drop start).head? = some log.entries[start] := by
      rw [List.head?_drop,List.getElem?_eq_getElem hlt]
    exact absurd (of_decide_eq_true hslot) (hempty hnil hpos _ hhead)

theorem paging_stretch (hmax : ∀ d ∈ log.entries, d.slot < maxSlot) (limits : List (Option ℕ))
    (cursor : ℕ) : Stretch log.entries cursor (log.paging cursor limits).flatten := by
  induction limits generalizing cursor with
  | nil => exact .nil
  | cons limit limits ih =>
    obtain ⟨page,heq,hpage,_⟩ := getDecisions_spec hmax cursor limit
    rw [paging,heq,List.flatten_cons]
    exact hpage.append (ih _)

/-- Paging that has come to an empty page has come to a gap. -/
theorem paging_gap (hmax : ∀ d ∈ log.entries, d.slot < maxSlot) {limits : List (Option ℕ)}
    (cursor : ℕ) (hlast : (log.paging cursor limits).getLast? = some []) :
    ¬ log.Has (cursor + (log.paging cursor limits).flatten.length) := by
  induction limits generalizing cursor with
  | nil => cases hlast
  | cons limit limits ih =>
    obtain ⟨page,heq,_,hempty⟩ := getDecisions_spec hmax cursor limit
    rw [paging,heq] at hlast ⊢
    simp only [List.flatten_cons,List.length_append,← Nat.add_assoc]
    cases limits with
    | nil =>
      obtain rfl : page = [] := by simpa [paging] using hlast
      exact hempty rfl
    | cons limit' limits =>
      refine ih _ ?_
      rwa [paging,List.getLast?_cons_cons] at hlast

/-- As many pages as there are entries, and one more, do not all hold something. -/
theorem paging_ends (hmax : ∀ d ∈ log.entries, d.slot < maxSlot) {limits : List (Option ℕ)}
    (cursor : ℕ) (hlen : log.entries.length < limits.length) : [] ∈ log.paging cursor limits := by
  by_contra hnone
  have hpages : (log.paging cursor limits).length = limits.length := by
    clear hlen hnone
    induction limits generalizing cursor with
    | nil => rfl
    | cons limit limits ih => rw [paging,List.length_cons,ih,List.length_cons]
  have hfull : (log.paging cursor limits).length ≤ (log.paging cursor limits).flatten.length := by
    generalize log.paging cursor limits = pages at hnone
    induction pages with
    | nil => rfl
    | cons page pages ih =>
      have hpage : page ≠ [] := fun h => hnone (h ▸ List.mem_cons_self)
      have hpos := List.length_pos_of_ne_nil hpage
      have hrest := ih fun h => hnone (List.mem_cons_of_mem _ h)
      rw [List.length_cons,List.flatten_cons,List.length_append]
      omega
  have hle := (paging_stretch hmax limits cursor).length_le
  omega

end DecisionLog

def Watcher.opened (log : DecisionLog V) (start : ℕ) : Watcher V :=
  { Watcher.new start with phase := .scanning log.entries }

/-- A watcher that is left alone: no broadcast comes. -/
structure Watcher.Alone (start : ℕ) (log : DecisionLog V) (w : Watcher V) : Prop where
  ok : w.Ok start log.entries
  queue : w.queue = []
  lagged : w.lagged = false
  started : w.phase.started = true
  covers : ∀ d ∈ log.entries, w.Covers d

def Watcher.Settles (w w' : Watcher V) : Prop :=
  Runs.Reaches (fun w (_ : Unit) => Watcher.poll false w) (fun _ _ => True) w w' ∧
    w'.poll false = none

/-- How many more steps it can take. -/
def Watcher.work (w : Watcher V) : ℕ :=
  3 * w.phase.rest.length + 2 * w.buffered.keys.length + (if w.draining then 1 else 0) +
    match w.phase with
    | .scanning _ => 1
    | _ => 0

section
variable {log : DecisionLog V} {start : ℕ} {w w' : Watcher V}

theorem Watcher.Alone.opened (log : DecisionLog V) (start : ℕ) :
    (Watcher.opened log start).Alone start log where
  ok := { Watcher.Ok.new with rest := fun _ hd => hd }
  queue := rfl
  lagged := rfl
  started := rfl
  covers := fun _ hd => .inr (.inl hd)

theorem Watcher.take_frame (w : Watcher V) (d : Decision V) :
    (w.take d).queue = w.queue ∧ (w.take d).phase = w.phase ∧
      (w.take d).work ≤ w.work + 2 := by
  unfold Watcher.take
  split_ifs with hlow hnext hmem
  · exact ⟨rfl,rfl,by omega⟩
  · refine ⟨rfl,rfl,?_⟩
    simp only [Watcher.work,if_true]
    split_ifs <;> omega
  · exact ⟨rfl,rfl,by omega⟩
  · refine ⟨rfl,rfl,?_⟩
    have hkeys : (w.buffered.insert d.slot d).keys.length = w.buffered.keys.length + 1 := by
      rw [AList.keys_insert,List.erase_of_not_mem hmem,List.length_cons]
    simp only [Watcher.work,hkeys]
    omega

theorem Watcher.drain_frame (hd : w.draining = true) :
    w.drain.queue = w.queue ∧ w.drain.work < w.work := by
  unfold Watcher.drain
  split
  · rename_i d hl
    refine ⟨rfl,?_⟩
    have hmem : w.nextSlot ∈ w.buffered.keys :=
      AList.mem_keys.mp (AList.lookup_isSome.mp (by rw [hl]; rfl))
    have hpos := List.length_pos_of_mem hmem
    have hkeys : (w.buffered.erase w.nextSlot).keys.length = w.buffered.keys.length - 1 := by
      rw [AList.keys_erase,List.length_erase_of_mem hmem]
    simp only [Watcher.work,hkeys]
    omega
  · refine ⟨rfl,?_⟩
    simp only [Watcher.work,hd,if_true,Bool.false_eq_true,if_false]
    omega

/-- A step of a watcher that is left alone brings it closer to its end. -/
theorem Watcher.Alone.poll (h : w.Alone start log) (hmax : ∀ d ∈ log.entries, d.slot < maxSlot)
    (hw : w.poll false = some w') : w'.Alone start log ∧ w'.work < w.work := by
  have hframe : w'.queue = [] ∧ w'.phase.started = true ∧ w'.work < w.work := by
    unfold Watcher.poll at hw
    split at hw
    · rename_i hdrain
      cases hw
      obtain ⟨hqueue,hwork⟩ := Watcher.drain_frame hdrain
      refine ⟨hqueue.trans h.queue,?_,hwork⟩
      rw [w.drain_phase]
      exact h.started
    · split at hw
      · rename_i d rest hphase
        cases hw
        obtain ⟨hqueue,hphase',hwork⟩ := Watcher.take_frame { w with phase := .scanning rest } d
        refine ⟨hqueue.trans h.queue,by rw [hphase']; rfl,?_⟩
        have hstep : Watcher.work { w with phase := .scanning rest } + 3 = w.work := by
          simp only [Watcher.work,hphase,Phase.rest,List.length_cons]
          omega
        omega
      · rename_i hphase
        cases hw
        refine ⟨h.queue,rfl,?_⟩
        simp only [Watcher.work,hphase,Phase.rest]
        omega
      · rw [if_neg (by rw [h.lagged]; exact Bool.false_ne_true),h.queue] at hw
        cases hw
      · cases hw
  obtain ⟨hqueue,hstarted,hwork⟩ := hframe
  obtain ⟨hok,hcov⟩ := h.ok.poll hmax hw
  obtain ⟨hlag,_,hkeep⟩ := hcov hstarted
  exact ⟨⟨hok,hqueue,hlag.trans h.lagged,hstarted,fun d hd => hkeep d (h.covers d hd)⟩,hwork⟩

/-- When it waits for a broadcast, it waits for a slot that is not in the log. -/
theorem Watcher.Alone.gap (h : w.Alone start log) (hw : w.poll false = none) :
    ¬ log.Has (start + w.yielded.length) := by
  unfold Watcher.poll at hw
  split at hw
  · cases hw
  · rename_i hidle
    rw [Bool.not_eq_true] at hidle
    split at hw
    · cases hw
    · cases hw
    · rename_i hphase
      rintro ⟨d,hd,hslot⟩
      rw [← h.ok.next] at hslot
      have hbuf := h.ok.drained hidle
      rcases h.covers d hd with hin | hin | hin | hin
      · rw [h.queue] at hin
        cases hin
      · rw [hphase] at hin
        cases hin
      · rw [hslot,← AList.lookup_isSome,hbuf] at hin
        cases hin
      · omega
    · rename_i hscan hrest hlive
      have hstarted := h.started
      cases hphase : w.phase with
      | scanning rest =>
        cases rest with
        | nil => exact absurd hphase hrest
        | cons d rest => exact absurd hphase (hscan d rest)
      | live => exact absurd hphase hlive
      | idle | subscribed | ended =>
        rw [hphase] at hstarted
        cases hstarted

theorem Watcher.Alone.settles (h : w.Alone start log)
    (hmax : ∀ d ∈ log.entries, d.slot < maxSlot) : ∃ w', w.Settles w' := by
  induction hn : w.work using Nat.strong_induction_on generalizing w with
  | _ n ih =>
    cases hw : w.poll false with
    | none => exact ⟨w,.start,hw⟩
    | some next =>
      obtain ⟨hnext,hwork⟩ := h.poll hmax hw
      obtain ⟨w',hrun,hwait⟩ := ih next.work (hn ▸ hwork) hnext rfl
      have hone : Runs.Reaches (fun w (_ : Unit) => Watcher.poll false w) (fun _ _ => True) w next :=
        .next (l := ()) .start trivial hw
      exact ⟨w',hone.trans hrun,hwait⟩

end

/-- A client that reads pages while decisions are appended. -/
structure Reader (V : Type) where
  service : State V
  cursor : ℕ
  pages : List (List (Decision V))

def Reader.init (start : ℕ) : Reader V := ⟨.init start,start,[]⟩

inductive Reader.Label (V : Type)
  | service (l : Service.Label V)
  | page (limit : Option ℕ)

def Reader.step (capacity : ℕ) (r : Reader V) : Reader.Label V → Option (Reader V)
  | .service l => (r.service.step capacity l).map fun s => { r with service := s }
  | .page limit =>
    let page := r.service.log.getDecisions r.cursor limit
    some { r with cursor := page.2, pages := r.pages ++ [page.1] }

def Reader.InRange (r : Reader V) : Reader.Label V → Prop
  | .service l => Service.InRange r.service l
  | .page _ => True

instance (r : Reader V) : (l : Reader.Label V) → Decidable (r.InRange l)
  | .service l => inferInstanceAs (Decidable (Service.InRange r.service l))
  | .page _ => isTrue trivial

/-- The pages so far are consecutive entries of the log, up to the cursor. -/
structure Reader.Ok (start : ℕ) (r : Reader V) : Prop where
  service : r.service.Sound start
  pages : Stretch r.service.log.entries start r.pages.flatten
  cursor : r.cursor = start + r.pages.flatten.length

section
variable {start capacity : ℕ} {r r' : Reader V}

theorem State.entries_mono {s s' : State V} {l : Label V} (hs : s.step capacity l = some s') :
    ∀ d ∈ s.log.entries, d ∈ s'.log.entries := by
  intro d hd
  cases l with
  | append e =>
    cases hs
    change d ∈ (s.log.append e).1.entries
    unfold DecisionLog.append
    split
    · exact hd
    · rw [List.mem_orderedInsert]
      exact .inr hd
  | send pos =>
    obtain ⟨e,_,rfl⟩ := Option.map_eq_some_iff.mp hs
    exact hd
  | subscribe | snapshot =>
    simp only [State.step] at hs
    split at hs
    · cases hs
      exact hd
    · cases hs
  | poll =>
    obtain ⟨w,_,rfl⟩ := Option.map_eq_some_iff.mp hs
    exact hd
  | close =>
    cases hs
    exact hd

theorem Reader.Ok.step (h : r.Ok start) {l : Reader.Label V} (hl : r.InRange l)
    (hs : r.step capacity l = some r') : r'.Ok start := by
  cases l with
  | service l =>
    obtain ⟨s,hstep,rfl⟩ := Option.map_eq_some_iff.mp hs
    exact ⟨h.service.step hl hstep,h.pages.mono (State.entries_mono hstep),h.cursor⟩
  | page limit =>
    cases hs
    obtain ⟨page,heq,hpage,_⟩ := DecisionLog.getDecisions_spec h.service.range r.cursor limit
    simp only [heq]
    refine ⟨h.service,?_,?_⟩
    · rw [List.flatten_append,List.flatten_singleton]
      exact h.pages.append (h.cursor ▸ hpage)
    · rw [List.flatten_append,List.flatten_singleton,List.length_append,h.cursor,Nat.add_assoc]

end

/-- Pages read what a watcher yields. Over any appends the pages hold the slots from
`start` on, each with the first value appended for it. On one snapshot, pages
come to an empty one, and then they have read what a watcher of the snapshot
yields before it waits for a broadcast, as it does in the end. -/
theorem pages_equal_watch (capacity start : ℕ) (r : Reader V)
    (h : Runs.Reaches (Reader.step capacity) Reader.InRange (.init start) r) :
    (∀ i d, r.pages.flatten[i]? = some d →
      d.slot = start + i ∧ r.service.first d.slot = some d.value) ∧
    (∀ first limits, (r.service.log.paging first limits).getLast? = some [] →
      ∀ w, (Watcher.opened r.service.log first).Settles w →
        (r.service.log.paging first limits).flatten = w.yielded) ∧
    (∀ first limits, r.service.log.entries.length < limits.length →
      [] ∈ r.service.log.paging first limits) ∧
    ∀ first, ∃ w, (Watcher.opened r.service.log first).Settles w := by
  have hok : r.Ok start := by
    refine h.invariant (Reader.Ok start) ⟨.init,.nil,rfl⟩ ?_
    exact fun _ _ _ _ hr hl hs => hr.step hl hs
  have hmax := hok.service.range
  refine ⟨fun i d hd => ?_,fun first limits hlast w hw => ?_,
    fun first limits hlen => DecisionLog.paging_ends hmax first hlen,
    fun first => (Watcher.Alone.opened r.service.log first).settles hmax⟩
  · obtain ⟨hE,hslot⟩ := hok.pages i d hd
    refine ⟨hslot,?_⟩
    rw [State.first,(hok.service.first d).mp hE]
    rfl
  · obtain ⟨hrun,hwait⟩ := hw
    have halone : w.Alone first r.service.log := by
      refine hrun.invariant (Watcher.Alone first r.service.log) (.opened _ _) ?_
      exact fun x _ x' _ hx _ hs => (hx.poll hmax hs).1
    exact (DecisionLog.paging_stretch hmax limits first).eq_of_gap halone.ok.yielded
      (DecisionLog.paging_gap hmax first hlast) (halone.gap hwait)

/-- Slot 2 is there before slot 1; a page ends at the gap and the next one goes on. -/
def twoPages : Reader ℕ :=
  Runs.after (Reader.step 8) Reader.InRange (.init 0)
    [.service (.append ⟨0,10⟩),.service (.append ⟨2,30⟩),.page none,.service (.append ⟨1,20⟩),
      .service (.append ⟨1,21⟩),.page (some 1),.page (some 0)] (by decide +kernel)

theorem pages_equal_watch_twoPages :
    twoPages.pages = [[⟨0,10⟩],[⟨1,20⟩],[⟨2,30⟩]] ∧ twoPages.service.first 1 = some 20 ∧
      twoPages.service.log.paging 1 [some 1,some 1,none] = [[⟨1,20⟩],[⟨2,30⟩],[]] ∧
      ∃ w, (Watcher.opened twoPages.service.log 1).Settles w ∧
        w.yielded = [⟨1,20⟩,⟨2,30⟩] := by
  have hrun : Runs.Reaches (Reader.step 8) Reader.InRange (.init 0) twoPages :=
    Runs.after_reaches .start (by decide +kernel)
  obtain ⟨hfirst,hsame,_,hwait⟩ := pages_equal_watch 8 0 twoPages hrun
  have hpaged : twoPages.service.log.paging 1 [some 1,some 1,none] = [[⟨1,20⟩],[⟨2,30⟩],[]] := by
    decide +kernel
  obtain ⟨w,hw⟩ := hwait 1
  refine ⟨by decide +kernel,(hfirst 1 ⟨1,20⟩ (by decide +kernel)).2,hpaged,w,hw,?_⟩
  have hall := hsame 1 [some 1,some 1,none] (by rw [hpaged]; rfl) w hw
  rw [hpaged] at hall
  exact hall.symm

end Service
end Daccord
