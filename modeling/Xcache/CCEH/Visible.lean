import Xcache.CCEH.Kept

/-! What the calls of `Insert` and `Get` can tell each other. Beside the state stands the
history of a run: the pairs that `Insert` was called with, those whose call has returned,
and what had returned when each thread began its present call. -/

namespace Xcache.CCEH
open Function
open SuspendLock (LockPc UnlockPc SuspendPc Out)

structure History (T : Type) where
  called : List (Key × Value)
  done : List (Key × Value)
  known : T → List (Key × Value)

namespace History
variable {T : Type}

def empty : History T := ⟨[], [], fun _ => []⟩

variable [DecidableEq T]

def begin (hist : History T) (t : T) : History T :=
  { hist with known := update hist.known t hist.done }

def insert (hist : History T) (t : T) (key : Key) (value : Value) : History T :=
  { hist.begin t with called := (key, value) :: hist.called }

end History

namespace State
variable {T : Type} [DecidableEq T]

def returning (h : Key → BitVec 64) (s : State T) (t : T) : List (Key × Value) :=
  match (s.threads t).pc, (act h s.table (s.threads t)).2.pc with
  | .segUnlock _ .done, .idle => [((s.threads t).key, (s.threads t).value)]
  | _, _ => []

end State

def History.tick {T : Type} (h : Key → BitVec 64) (s : State T) (hist : History T)
    (t : T) : History T :=
  { hist with done := s.returning h t ++ hist.done }

/-- The runs of any number of calls from a new table, with their histories. -/
inductive SafeRun {T : Type} [DecidableEq T] (h : Key → BitVec 64) (tab : Table) :
    State T → History T → Prop
  | start : SafeRun h tab (State.initial T tab) .empty
  | insert {s : State T} {hist : History T} (run : SafeRun h tab s hist) (t : T) (key : Key)
    (value : Value) : (s.threads t).pc = .idle → key ≠ invalidKey ∧ key ≠ sentinelKey →
        SafeRun h tab (s.call t .readDepth key value) (hist.insert t key value)
  | get {s : State T} {hist : History T} (run : SafeRun h tab s hist) (t : T) (key : Key) :
      (s.threads t).pc = .idle → SafeRun h tab (s.call t .getSpin key noneValue) (hist.begin t)
  | tick {s : State T} {hist : History T} (run : SafeRun h tab s hist) (t : T) : s.Safe h t →
      SafeRun h tab (s.tick h t) (hist.tick h s t)

/-- What a `Get` knows of the pairs that were there when it began. -/
structure Thread.Reads (h : Key → BitVec 64) (tab : Table) (known : List (Key × Value))
    (l : Thread) : Prop where
  index : l.pc = .getEntry → l.x = index l.depth (h l.key)
  found : l.pc = .getCheck → ∀ v, (l.key, v) ∈ known → ∃ i < kNumPairPerCacheLine * kNumCacheLine,
    tab.pair (l.target, l.slot h i) = ⟨l.key, some v⟩
  ahead : ∀ n, l.pc = .getProbe n → ∀ v, (l.key, v) ∈ known →
    ∃ i < kNumPairPerCacheLine * kNumCacheLine,
    n ≤ i ∧ tab.pair (l.target, l.slot h i) = ⟨l.key, some v⟩
  value : ∀ i, l.pc = .getValue i → l.key ≠ invalidKey ∧ l.key ≠ sentinelKey →
    (tab.pair (l.target, l.slot h i)).key = l.key

namespace State
variable {T : Type} [DecidableEq T] {h : Key → BitVec 64} {s : State T} {t : T} {hist : History T}

omit [DecidableEq T] in
theorem mem_returning {p : Key × Value} (mem : p ∈ s.returning h t) :
    (∃ c, (s.threads t).pc = .segUnlock c .done) ∧
      p = ((s.threads t).key, (s.threads t).value) := by
  unfold returning at mem
  split at mem
  · exact ⟨⟨_, ‹_›⟩, List.mem_singleton.mp mem⟩
  · cases mem

/-- The table and the threads remember what the history tells. -/
structure Remembers [Fintype T] (h : Key → BitVec 64) (s : State T) (hist : History T) : Prop where
  intact : s.Intact h
  calls : ∀ t, (s.threads t).pc.inserting = true → ((s.threads t).key, (s.threads t).value) ∈
    hist.called
  values : ∀ q, q.1 < s.table.nseg → (s.table.pair q).Full →
    ∃ v, (s.table.pair q).value = some v ∧ ((s.table.pair q).key, v) ∈ hist.called
  written : ∀ t c, (s.threads t).pc = .segUnlock c .done →
    s.table.Holds h (s.threads t).key (s.threads t).value
  valid : ∀ k v, (k, v) ∈ hist.done → k ≠ invalidKey ∧ k ≠ sentinelKey
  done : ∀ k v, (k, v) ∈ hist.done → s.table.Holds h k v
  known : ∀ t, hist.known t ⊆ hist.done
  reads : ∀ t, (s.threads t).Reads h s.table (hist.known t)

section
variable [Fintype T]

theorem Remembers.values_tick (mem : s.Remembers h hist) {q : Nat × Fin kNumSlot}
    (lt : q.1 < (s.tick h t).table.nseg) (full : ((s.tick h t).table.pair q).Full) :
    ∃ v, ((s.tick h t).table.pair q).value = some v ∧
      (((s.tick h t).table.pair q).key, v) ∈ hist.called := by
  have alloc := mem.intact.accounted.alloc.threads t
  rcases Nat.lt_or_ge q.1 s.table.nseg with old | new
  · rcases act_slots h s.table (s.threads t) with
      ⟨i, k, pc, _, step⟩ | ⟨i, pc, step⟩ | ⟨i, pc, step⟩ | ⟨other, _⟩
    · rw [tick_slot step, update_apply] at full ⊢
      split at full
      · exact absurd rfl full.settled
      · rw [if_neg ‹_›]
        exact mem.values q old full
    · rw [tick_slot step, update_apply] at full ⊢
      split at full
      · exact absurd (mem.intact.slotted.taken_key (taken_of (by rw [pc]; rfl))) full.settled
      · rw [if_neg ‹_›]
        exact mem.values q old full
    · rw [tick_slot step, update_apply] at full ⊢
      split at full
      · rw [if_pos ‹_›]
        exact ⟨_, (mem.intact.slotted.threads t).value i pc, mem.calls t (by rw [pc]; rfl)⟩
      · rw [if_neg ‹_›]
        exact mem.values q old full
    · rw [tick_pair other old] at full ⊢
      exact mem.values q old full
  · obtain ⟨pc, j, eq⟩ := pair_of_new new lt full.live
    rw [← eq] at full ⊢
    exact mem.values _ alloc.target full

theorem Remembers.written_tick (mem : s.Remembers h hist) (safe : s.Safe h t) :
    ∀ u c, ((s.tick h t).threads u).pc = .segUnlock c .done →
      (s.tick h t).table.Holds h ((s.tick h t).threads u).key ((s.tick h t).threads u).value := by
  have intact := mem.intact
  refine (Function.forall_update_iff s.threads fun _ l => ∀ c, l.pc = .segUnlock c .done →
    (s.tick h t).table.Holds h l.key l.value).mpr ⟨fun c done => ?_, fun u _ c done => ?_⟩
  · rw [act_key, act_value]
    rcases act_done done with ⟨i, pc⟩ | ⟨c', pc⟩
    · -- the key has just been stored beside the value
      have probing : (s.threads t).pc.probing = true := by
        rw [pc]
        rfl
      have target :=
        intact.target_stays safe (Pc.inside_of_probing probing) ((intact.current t).probing probing)
      have step : act h s.table (s.threads t) = (.slot (s.threads t).target ((s.threads t).slot h i)
          ⟨(s.threads t).key, (s.table.pair ((s.threads t).target, (s.threads t).slot h i)).value⟩,
            (s.threads t).goto (.segUnlock .load .done)) := by
        simp only [act, pc]
        rfl
      refine ⟨(s.threads t).slot h i, Segment.mem_windowSlots.mpr
        ⟨i, (intact.current t).round i (by rw [pc]; rfl), rfl⟩, ?_⟩
      rw [target, tick_slot step, update_self, (intact.slotted.threads t).value i pc]
    · exact intact.holds_tick safe ((intact.slotted.threads t).key (by rw [pc]; rfl))
        (mem.written t c' pc)
  · exact intact.holds_tick safe ((intact.slotted.threads u).key (by rw [done]; rfl))
      (mem.written u c done)

theorem Remembers.slot_stays (mem : s.Remembers h hist) (t u : T) {i : Nat}
    (valid : (s.threads u).key ≠ invalidKey ∧ (s.threads u).key ≠ sentinelKey)
    (here : (s.table.pair ((s.threads u).target, (s.threads u).slot h i)).key = (s.threads u).key) :
    (s.tick h t).table.pair ((s.threads u).target, (s.threads u).slot h i) =
      s.table.pair ((s.threads u).target, (s.threads u).slot h i) := by
  refine mem.intact.slotted.full_tick t (mem.intact.accounted.alloc.threads u).target ?_
  exact ⟨fun free => valid.1 (here.symm.trans free), fun taken => valid.2 (here.symm.trans taken)⟩

theorem Remembers.reads_stay (mem : s.Remembers h hist) (t u : T) :
    (s.threads u).Reads h (s.tick h t).table (hist.known u) := by
  have theirs := mem.reads u
  refine ⟨theirs.index, fun pc v known => ?_, fun n pc v known => ?_, fun i pc valid => ?_⟩
  · obtain ⟨i, lt, eq⟩ := theirs.found pc v known
    exact ⟨i, lt, (mem.slot_stays t u (mem.valid _ _ (mem.known u known)) (by rw [eq])).trans eq⟩
  · obtain ⟨i, lt, le, eq⟩ := theirs.ahead n pc v known
    exact ⟨i, lt, le, (mem.slot_stays t u (mem.valid _ _ (mem.known u known)) (by rw [eq])).trans
      eq⟩
  · rw [mem.slot_stays t u valid (theirs.value i pc valid)]
    exact theirs.value i pc valid

theorem Remembers.reads_mine (mem : s.Remembers h hist) (safe : s.Safe h t) :
    (act h s.table (s.threads t)).2.Reads h (s.tick h t).table (hist.known t) := by
  have mine := mem.reads t
  have flow := act_flow h s.table (s.threads t)
  constructor
  · intro reads
    rw [reads] at flow
    generalize pc : (s.threads t).pc = p at flow
    cases flow
    simp only [act, pc]
  · intro checks v known
    rw [checks] at flow
    generalize pc : (s.threads t).pc = p at flow
    cases flow
    -- the entry has been read for the current depth
    have target : (act h s.table (s.threads t)).2.target = s.table.target h (s.threads t).key := by
      simp only [act, pc]
      rw [Table.target, ← safe.depth pc, ← mine.index pc]
    rw [act_key] at known ⊢
    have valid := mem.valid _ _ (mem.known t known)
    obtain ⟨j, inWindow, eq⟩ := mem.done _ _ (mem.known t known)
    have full : (s.table.pair (s.table.target h (s.threads t).key, j)).Full := by
      rw [eq]
      exact ⟨valid.1, valid.2⟩
    obtain ⟨i, lt, rfl⟩ := Segment.mem_windowSlots.mp inWindow
    refine ⟨i, lt, ?_⟩
    rw [act_slotOf, target]
    exact (mem.intact.slotted.full_tick t (mem.intact.accounted.alloc.table.entries _) full).trans
      eq
  · intro n probes v known
    rw [probes] at flow
    rw [act_key] at known ⊢
    simp only [act_slotOf]
    have valid := mem.valid _ _ (mem.known t known)
    generalize pc : (s.threads t).pc = p at flow
    rw [act_target_stays (by rw [pc]; cases flow <;> rfl)]
    cases flow with
    | getSame =>
      obtain ⟨i, lt, eq⟩ := mine.found pc v known
      exact ⟨i, lt, Nat.zero_le i, (mem.slot_stays t t valid (by rw [eq])).trans eq⟩
    | other n differs =>
      obtain ⟨i, lt, le, eq⟩ := mine.ahead n pc v known
      have away : n ≠ i := by
        rintro rfl
        exact differs (congrArg Pair.key eq)
      exact ⟨i, lt, lt_of_le_of_ne le away, (mem.slot_stays t t valid (by rw [eq])).trans eq⟩
  · intro i hits valid
    rw [hits] at flow
    rw [act_key] at valid ⊢
    generalize pc : (s.threads t).pc = p at flow
    rw [act_slotOf, act_target_stays (by rw [pc]; cases flow; rfl)]
    cases flow with
    | hit _ same =>
      rw [mem.slot_stays t t valid same]
      exact same

theorem Remembers.tick (mem : s.Remembers h hist) (safe : s.Safe h t) :
    (s.tick h t).Remembers h (hist.tick h s t) where
  intact := mem.intact.tick safe
  calls := by
    refine (Function.forall_update_iff s.threads fun _ l => l.pc.inserting = true →
      (l.key, l.value) ∈ hist.called).mpr ⟨fun inserting => ?_, fun u _ => mem.calls u⟩
    rw [act_key, act_value]
    exact mem.calls t (act_inserting inserting)
  values _ lt full := mem.values_tick lt full
  written := mem.written_tick safe
  valid := by
    intro k v done
    rcases List.mem_append.mp done with returns | before
    · obtain ⟨⟨c, pc⟩, eq⟩ := mem_returning returns
      cases eq
      exact (mem.intact.slotted.threads t).key (by rw [pc]; rfl)
    · exact mem.valid k v before
  done := by
    intro k v done
    rcases List.mem_append.mp done with returns | before
    · obtain ⟨⟨c, pc⟩, eq⟩ := mem_returning returns
      cases eq
      exact mem.intact.holds_tick safe ((mem.intact.slotted.threads t).key (by rw [pc]; rfl))
        (mem.written t c pc)
    · exact mem.intact.holds_tick safe (mem.valid k v before) (mem.done k v before)
  known u := List.Subset.trans (mem.known u) (List.subset_append_right ..)
  reads := by
    refine (Function.forall_update_iff s.threads fun u l =>
      l.Reads h (s.tick h t).table (hist.known u)).mpr ⟨?_, ?_⟩
    · exact mem.reads_mine safe
    · intro u _
      exact mem.reads_stay t u

theorem Remembers.call (mem : s.Remembers h hist) (idle : (s.threads t).pc = .idle) {start : Pc}
    {key : Key} {value : Value} {called : List (Key × Value)}
    (fresh : start = .readDepth ∨ start = .getSpin)
    (valid : start = .readDepth → key ≠ invalidKey ∧ key ≠ sentinelKey)
    (grows : hist.called ⊆ called) (mine : start = .readDepth → (key, value) ∈ called) :
    (s.call t start key value).Remembers h { hist.begin t with called := called } where
  intact := mem.intact.call idle value fresh valid
  calls := by
    refine (Function.forall_update_iff s.threads fun _ l => l.pc.inserting = true →
      (l.key, l.value) ∈ called).mpr ⟨fun inserting => ?_, fun u _ inserting =>
        grows (mem.calls u inserting)⟩
    rcases fresh with rfl | rfl
    · exact mine rfl
    · cases inserting
  values q lt full := by
    obtain ⟨v, eq, inserted⟩ := mem.values q lt full
    exact ⟨v, eq, grows inserted⟩
  written := by
    refine (Function.forall_update_iff s.threads fun _ l => ∀ c, l.pc = .segUnlock c .done →
      s.table.Holds h l.key l.value).mpr ⟨fun c done => ?_, fun u _ => mem.written u⟩
    rcases fresh with rfl | rfl <;> cases done
  valid := mem.valid
  done := mem.done
  known := (Function.forall_update_iff hist.known fun _ l => l ⊆ hist.done).mpr
    ⟨List.Subset.refl _, fun u _ => mem.known u⟩
  reads := by
    intro u
    by_cases here : u = t
    · subst here
      show (update s.threads u _ u).Reads h s.table (update hist.known u _ u)
      rw [update_self, update_self]
      rcases fresh with rfl | rfl <;> exact ⟨nofun, nofun, nofun, nofun⟩
    · show (update s.threads t _ u).Reads h s.table (update hist.known t _ u)
      rw [update_of_ne here, update_of_ne here]
      exact mem.reads u

omit [DecidableEq T] in
theorem remembers_initial {depth : Nat} {tab : Table} (pos : 1 ≤ depth)
    (made : Table.construct depth = some tab) :
    (initial T tab).Remembers h .empty where
  intact := intact_initial pos made
  calls _ := nofun
  values q _ full := by
    refine absurd ?_ full.live
    show ((tab.segs q.1).slots q.2).key = invalidKey
    rw [(Table.construct_spec made).2.1 q.1]
    rfl
  written _ _ := nofun
  valid _ _ := nofun
  done _ _ := nofun
  known _ := List.Subset.refl _
  reads _ := ⟨nofun, nofun, nofun, nofun⟩

theorem remembers_of_run {depth : Nat} {tab : Table} (pos : 1 ≤ depth)
    (made : Table.construct depth = some tab)
    (run : SafeRun h tab s hist) : s.Remembers h hist := by
  induction run with
  | start => exact remembers_initial pos made
  | insert run t key value idle valid ih =>
    exact ih.call idle (Or.inl rfl) (fun _ => valid) (List.subset_cons_self ..) fun _ =>
      List.mem_cons_self
  | get run t key idle ih =>
    exact ih.call idle (Or.inr rfl) nofun (List.Subset.refl _) nofun
  | tick run t safe ih => exact ih.tick safe

omit [DecidableEq T] in
/-- A key that the table holds is found by a `Get` that nothing interferes with, with a
value of one of its calls. -/
theorem Remembers.get (mem : s.Remembers h hist) {k : Key} {v : Value} (done : (k, v) ∈ hist.done)
    (free : 0 ≤ s.table.cur.sema) : ∃ w, s.table.get h k = some w ∧ (k, w) ∈ hist.called := by
  obtain ⟨j, inWindow, eq⟩ := mem.done k v done
  obtain ⟨live, settled⟩ := mem.valid k v done
  unfold Table.get
  rw [if_neg free.not_gt]
  dsimp only
  cases found : (windowSlots (window (h k))).find? fun i =>
      ((s.table.segs (s.table.target h k)).slots i).key = k with
  | none =>
    have differs := List.find?_eq_none.mp found j inWindow
    exact absurd (decide_eq_true (congrArg Pair.key eq)) differs
  | some i =>
    have hit := List.find?_some found
    have same : (s.table.pair (s.table.target h k, i)).key = k := of_decide_eq_true hit
    obtain ⟨w, value, called⟩ := mem.values (s.table.target h k, i)
      (mem.intact.accounted.alloc.table.entries _) ⟨by rwa [Pair.Live, same], by rwa [same]⟩
    rw [same] at called
    exact ⟨w, value, called⟩

/-- Any number of threads call `Insert` and `Get`, one access at a time. In every run whose
steps are safe: a pair whose `Insert` has returned is in the segment of its key from then
on; a `Get` that finds nothing began before any `Insert` of its key had returned; and a
value that `Get` returns was given to an `Insert` of the same key. -/
theorem returned_inserts_visible {depth : Nat} {tab : Table} (pos : 1 ≤ depth)
    (made : Table.construct depth = some tab) (run : SafeRun h tab s hist) :
    (∀ k v, (k, v) ∈ hist.done → s.table.Holds h k v ∧
      (0 ≤ s.table.cur.sema → ∃ w, s.table.get h k = some w ∧ (k, w) ∈ hist.called)) ∧
    (∀ t i, (s.threads t).pc = .getProbe i → kNumPairPerCacheLine * kNumCacheLine ≤ i →
      ∀ v, ((s.threads t).key, v) ∉ hist.known t) ∧
    ∀ t i, (s.threads t).pc = .getValue i → (s.threads t).key ≠ invalidKey →
      (s.threads t).key ≠ sentinelKey →
      ∃ v, (s.table.pair ((s.threads t).target, (s.threads t).slot h i)).value = some v ∧
        ((s.threads t).key, v) ∈ hist.called := by
  have mem := remembers_of_run pos made run
  refine ⟨fun k v done => ⟨mem.done k v done, mem.get done⟩, ?_, ?_⟩
  · intro t n pc out v known
    obtain ⟨i, lt, le, _⟩ := (mem.reads t).ahead n pc v known
    omega
  · intro t i pc live settled
    have same := (mem.reads t).value i pc ⟨live, settled⟩
    obtain ⟨v, value, called⟩ := mem.values ((s.threads t).target, (s.threads t).slot h i)
      (mem.intact.accounted.alloc.threads t).target ⟨by rwa [Pair.Live, same], by rwa [same]⟩
    rw [same] at called
    exact ⟨v, value, called⟩

end

omit [DecidableEq T] in
theorem returning_of_leaves (before : (s.threads t).pc.inserting = true)
    (after : ¬ (act h s.table (s.threads t)).2.pc.inserting = true) :
    s.returning h t = [((s.threads t).key, (s.threads t).value)] := by
  have flow := act_flow h s.table (s.threads t)
  unfold returning
  generalize (s.threads t).pc = p, (act h s.table (s.threads t)).2.pc = p' at flow before after ⊢
  cases flow <;> first | rfl | exact absurd rfl after | cases before

theorem done_or_inserting {tab : Table} (run : SafeRun h tab s hist) {p : Key × Value}
    (called : p ∈ hist.called) : p ∈ hist.done ∨
      ∃ t, (s.threads t).pc.inserting = true ∧ ((s.threads t).key, (s.threads t).value) = p := by
  have goes_on : ∀ {s : State T} {t : T} {start : Pc} {key : Key} {value : Value},
    (s.threads t).pc = .idle →
      (∃ u, (s.threads u).pc.inserting = true ∧ ((s.threads u).key, (s.threads u).value) = p) →
        ∃ u, ((s.call t start key value).threads u).pc.inserting = true ∧
          (((s.call t start key value).threads u).key,
            ((s.call t start key value).threads u).value) = p := by
    rintro s t start key value idle ⟨u, inserting, eq⟩
    have other : u ≠ t := by
      rintro rfl
      rw [idle] at inserting
      cases inserting
    have same : (s.call t start key value).threads u = s.threads u := update_of_ne other ..
    exact ⟨u, by rwa [same], by rwa [same]⟩
  induction run with
  | start => cases called
  | @insert s hist _ t key value idle _ ih =>
    rcases List.mem_cons.mp called with rfl | before
    · have mine : (s.call t .readDepth key value).threads t =
          { s.threads t with pc := .readDepth, key := key, value := value } :=
            update_self ..
      exact Or.inr ⟨t, by rw [mine]; rfl, by rw [mine]⟩
    · exact (ih before).imp_right (goes_on idle)
  | get _ _ _ idle ih => exact (ih called).imp_right (goes_on idle)
  | @tick s hist _ t _ ih =>
    rcases ih called with done | ⟨u, inserting, eq⟩
    · exact Or.inl (List.mem_append_right _ done)
    · by_cases here : u = t
      · subst here
        have mine : (s.tick h u).threads u = (act h s.table (s.threads u)).2 :=
          update_self ..
        by_cases goes : (act h s.table (s.threads u)).2.pc.inserting = true
        · exact Or.inr ⟨u, by rwa [mine], by rwa [mine, act_key, act_value]⟩
        · refine Or.inl (List.mem_append_left _ ?_)
          rw [returning_of_leaves inserting goes, eq]
          exact List.mem_singleton_self p
      · have same : (s.tick h t).threads u = s.threads u := update_of_ne here ..
        exact Or.inr ⟨u, by rwa [same], by rwa [same]⟩

/-- Thread 0 fills two windows and doubles the directory, thread 1 splits the other segment: the
pair of `midKey` has returned and been moved to a new segment, where a `Get` that begins now knows
of it. -/
theorem returned_inserts_visible_grown :
    ∃ (tab : Table) (s : State (Fin 2)) (hist : History (Fin 2)),
    Table.construct 1 = some tab ∧ SafeRun id tab s hist ∧ s.table.cur.depth = 2 ∧
      s.table.cur.entries 2 = 4 ∧
      (Table.midKey, 1) ∈ hist.known 0 ∧ s.table.target id Table.midKey = 3 ∧
      s.table.Holds id Table.midKey 1 := by
  obtain ⟨tab, made⟩ : ∃ tab, Table.construct 1 = some tab := ⟨_, rfl⟩
  obtain ⟨full, stores, two⟩ := Table.twoFull_stores made
  let R : State (Fin 2) → State (Fin 2) → Prop := fun s s' =>
    (∃ hist, SafeRun id tab s hist) → ∃ hist, SafeRun id tab s' hist
  have lift : ∀ s t, Thread.Tame id s.table (s.threads t) → R s (s.tick id t) :=
      fun s t tame ⟨hist, run⟩ =>
    ⟨_, run.tick t ⟨⟨tame.publish, tame.store⟩, fun pc => absurd pc tame.check,
      fun pc => absurd pc tame.entry, tame.split⟩⟩
  have calls : ∀ s t key value, (s.threads t).pc = .idle → key ≠ invalidKey ∧ key ≠ sentinelKey →
      R s (s.call t .readDepth key value) := fun s t key value idle valid ⟨hist, run⟩ =>
    ⟨_, run.insert t key value idle valid⟩
  have whole : ∀ {s s'}, Relation.ReflTransGen R s s' → R s s' := by
    intro s s' steps
    induction steps with
    | refl => exact id
    | tail _ step ih => exact fun run => step (ih run)
  obtain ⟨s₁, run₁, rfl, idle, others⟩ := run_of_stores (t := (0 : Fin 2)) lift calls stores
    (s := initial (Fin 2) tab) rfl (fun op mem =>
      ((Table.twoWindows_valid op mem).imp_right And.left)) rfl
  obtain ⟨s, run₂, idle₀, pc, key, grown⟩ := run_of_twoFull lift calls two
    (Fin.forall_fin_two.mpr ⟨idle, by rw [others 1 (by decide)]; rfl⟩)
  obtain ⟨hist, run⟩ := whole (run₁.trans run₂) ⟨_, .start⟩
  have mem := remembers_of_run (le_refl 1) made run
  obtain ⟨j, inWindow, kept⟩ := two.mid_kept
  have pair : s.table.pair (3, j) = ⟨Table.midKey, some 1⟩ := by
    rw [Table.pair, grown.mid]
    exact kept
  have e₁ : s.table.cur.entries 1 = 3 := grown.entries 1 (by decide)
  obtain ⟨v, value, called⟩ := mem.values (3, j) (e₁ ▸ mem.intact.accounted.alloc.table.entries 1)
    (by rw [pair]; exact ⟨by decide, by decide⟩)
  rw [pair] at value called
  cases value
  -- the call that goes on is the one of `highKey`
  have done : (Table.midKey, 1) ∈ hist.done := by
    refine (done_or_inserting run called).resolve_right
      (not_exists.mpr (Fin.forall_fin_two.mpr ⟨?_, ?_⟩))
    · rw [idle₀]
      exact fun goes => Bool.false_ne_true goes.1
    · rw [key]
      exact fun goes => absurd (congrArg Prod.fst goes.2)
        (show Table.highKey ≠ Table.midKey by decide)
  have target : s.table.target id Table.midKey = 3 := by
    rw [Table.target, grown.depth]
    exact e₁
  refine ⟨tab, s.call 0 .getSpin Table.midKey noneValue, hist.begin 0, made, run.get 0 _ idle₀,
    grown.depth, grown.entries 2 (by decide), ?_, target, ?_⟩
  · show _ ∈ update hist.known 0 hist.done 0
    rwa [update_self]
  · exact ((returned_inserts_visible (le_refl 1) made (run.get 0 Table.midKey idle₀)).1 _ _ done).1

end State

end Xcache.CCEH
