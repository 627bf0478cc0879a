import Mathlib.Data.Fintype.Basic
import Xcache.CCEH.Alone

/-! The lock words of the segments under any interleaving of `Insert` and `Get`: each
follows the protocol of the lock, as long as no `Get` takes its retry path. -/

namespace Xcache.CCEH
open Function
open SuspendLock (LockPc UnlockPc SuspendPc Out Word Sound)
open Relation (ReflTransGen)
open Table (highKey)

namespace State
variable {T : Type} [DecidableEq T] [Fintype T] {h : Key → BitVec 64}

/-- The `Insert` calls between their successful `lock` of a segment and its `unlock`. -/
def insideOf (s : State T) (a : Nat) : Finset T :=
  Finset.univ.filter fun t => (s.threads t).inside = some a

def word (s : State T) (a : Nat) : Word T := ⟨(s.table.segs a).sema, s.insideOf a, s.suspender a⟩

omit [DecidableEq T] in
theorem mem_insideOf {s : State T} {a : Nat} {t : T} :
    t ∈ s.insideOf a ↔ (s.threads t).inside = some a := by
  simp [insideOf]

theorem insideOf_update (s : State T) (t : T) (l : Thread) (tab : Table)
    (susp : Nat → Option (T × Nat)) (a : Nat) :
    (State.mk tab (update s.threads t l) susp).insideOf a =
      if l.inside = some a then insert t (s.insideOf a) else (s.insideOf a).erase t :=
  SuspendLock.holders_update (fun l : Thread => l.inside = some a) s.threads t l

theorem insideOf_update_same {s : State T} {t : T} {l : Thread}
    (same : l.inside = (s.threads t).inside) (tab : Table) (susp : Nat → Option (T × Nat))
    (a : Nat) :
    (State.mk tab (update s.threads t l) susp).insideOf a = s.insideOf a :=
  SuspendLock.holders_update_same (P := fun l : Thread => l.inside = some a) (by rw [same])

/-- What is true of the lock words in every state of a quiet run. -/
structure Accounted (s : State T) : Prop where
  alloc : s.Alloc
  sound : ∀ a, Sound (s.word a)
  waiting : ∀ t val, (s.threads t).pc = .segSuspend (.wait val) →
    s.suspender (s.threads t).target = some (t, val)
  drained : ∀ t, (s.threads t).pc.afterWait = true →
    (∃ v, s.suspender (s.threads t).target = some (t, v)) ∧ s.insideOf (s.threads t).target = ∅
  noUnlock : ∀ t c, (s.threads t).pc ≠ .getUnlock c

variable {s s' : State T} {t : T}

theorem Thread.inside_of_target {l : Thread} {a : Nat}
    (inside : l.inside = some a) : a = l.target := by
  unfold Thread.inside at inside
  split at inside
  · exact (Option.some.inj inside).symm
  · cases inside

omit [DecidableEq T] [Fintype T] in
theorem noteSuspend_away (away : (s.threads t).pc.usesSegLock = false) :
    s.noteSuspend t = s.suspender := by
  unfold noteSuspend
  split
  · rw [‹(s.threads t).pc = _›] at away
    cases away
  · rw [‹(s.threads t).pc = _›] at away
    cases away
  · rfl

theorem word_away (fresh : ∀ a, s.table.nseg ≤ a → (s.table.segs a).sema = 0)
    (away : (s.threads t).pc.usesSegLock = false) (a : Nat) : (s.tick h t).word a = s.word a := by
  have noSema : ∀ b v, (act h s.table (s.threads t)).1 ≠ .sema b v := by
    intro b v eq
    rw [(act_sema eq).1] at away
    cases away
  unfold word tick
  rw [insideOf_update_same (act_inside away), noteSuspend_away away]
  dsimp only
  rw [Effect.sema_apply noSema fresh]

/-- A step of a lock method that stores nothing and stays on its side. -/
theorem word_quiet {l : Thread} (eq : act h s.table (s.threads t) = (.none, l))
    (same : l.inside = (s.threads t).inside) (note : s.noteSuspend t = s.suspender) (a : Nat) :
    (s.tick h t).word a = s.word a := by
  rw [tick_eq eq]
  unfold word
  rw [insideOf_update_same same, note]
  rfl

theorem word_store {l : Thread} {v : Int}
    (eq : act h s.table (s.threads t) = (.sema (s.threads t).target v, l))
    (target : l.target = (s.threads t).target)
    (kept : ∀ b, b ≠ (s.threads t).target → s.noteSuspend t b = s.suspender b) (a : Nat) :
    (s.tick h t).word a = if a = (s.threads t).target then
        ⟨v, if l.pc.inside then insert t (s.insideOf a) else (s.insideOf a).erase t,
          s.noteSuspend t a⟩
      else s.word a := by
  rw [tick_eq eq]
  unfold word
  rw [insideOf_update]
  by_cases here : a = (s.threads t).target
  · rw [if_pos here]
    subst here
    simp only [Effect.apply, Table.setSema_segs, update_self, Thread.inside, target]
    cases l.pc.inside
    · rfl
    · simp only [if_true]
  · have out : l.inside ≠ some a :=
      fun inside => here ((Thread.inside_of_target inside).trans target)
    have notMem : t ∉ s.insideOf a :=
      fun mem => here (Thread.inside_of_target (mem_insideOf.mp mem))
    rw [if_neg here, if_neg out, Finset.erase_eq_self.mpr notMem]
    simp only [Effect.apply, Table.setSema_segs, update_of_ne here, kept a here]

theorem inside_of_pc {l : Thread} {pc : Pc} (at_pc : l.pc = pc) :
    l.inside = if pc.inside then some l.target else none := by
  rw [Thread.inside, at_pc]

/-- Every lock word follows the protocol of the lock. -/
theorem Accounted.tick_word (acc : s.Accounted) (t : T) (a : Nat) :
    (s.tick h t).word a = s.word a ∨ SuspendLock.Step t (s.word a) ((s.tick h t).word a) := by
  generalize pcEq : (s.threads t).pc = pc
  have inside := inside_of_pc pcEq
  cases pc with
  | segLock c =>
    have note : s.noteSuspend t = s.suspender := by rw [noteSuspend, pcEq]
    rcases SuspendLock.lock_cases (s.table.segs (s.threads t).target).sema c with
      ⟨c', eq⟩ | eq | ⟨nonneg, eq⟩
    · exact Or.inl (word_quiet (l := (s.threads t).goto (.segLock c'))
        (by simp only [act, pcEq, eq]; rfl) inside.symm note a)
    · exact Or.inl (word_quiet (l := (s.threads t).goto .readDepth)
        (by simp only [act, pcEq, eq]; rfl) inside.symm note a)
    · rw [word_store (l := (s.threads t).goto .checkEntry) (by simp only [act, pcEq, eq]; rfl) rfl
        (fun b _ => congrFun note b)]
      by_cases here : a = (s.threads t).target
      · have out : t ∉ s.insideOf a := by
          rw [mem_insideOf, inside]
          exact nofun
        rw [if_pos here, congrFun note a]
        subst here
        exact Or.inr (SuspendLock.Step.acquire nonneg out)
      · rw [if_neg here]
        exact Or.inl rfl
  | segUnlock c next =>
    have note : s.noteSuspend t = s.suspender := by rw [noteSuspend, pcEq]
    rcases SuspendLock.unlock_cases (s.table.segs (s.threads t).target).sema c with ⟨c', eq⟩ | eq
    · exact Or.inl (word_quiet (l := (s.threads t).goto (.segUnlock c' next))
        (by simp only [act, pcEq, eq]; rfl) inside.symm note a)
    · have left : next.pc.inside = false := by cases next <;> rfl
      rw [word_store (l := (s.threads t).goto next.pc) (by simp only [act, pcEq, eq]; rfl) rfl
        (fun b _ => congrFun note b)]
      by_cases here : a = (s.threads t).target
      · rw [if_pos here, congrFun note a, Thread.goto_pc, left]
        subst here
        exact Or.inr (SuspendLock.Step.release (mem_insideOf.mpr inside))
      · rw [if_neg here]
        exact Or.inl rfl
  | segSuspend c =>
    have out : t ∉ s.insideOf a := by
      rw [mem_insideOf, inside]
      exact nofun
    rcases SuspendLock.suspend_cases (s.table.segs (s.threads t).target).sema c with
      ⟨c', eq, _⟩ | ⟨_, eq⟩ | ⟨_, val, found, eq⟩ | ⟨_, _, _, eq⟩
    · have note : s.noteSuspend t = s.suspender := by simp only [noteSuspend, pcEq, eq]
      exact Or.inl (word_quiet (l := (s.threads t).goto (.segSuspend c'))
        (by simp only [act, pcEq, eq]; rfl) inside.symm note a)
    · have note : s.noteSuspend t = s.suspender := by simp only [noteSuspend, pcEq, eq]
      exact Or.inl (word_quiet (l := (s.threads t).goto .readDepth)
        (by simp only [act, pcEq, eq]; rfl) inside.symm note a)
    · have note : s.noteSuspend t =
          update s.suspender (s.threads t).target (some (t, val)) := by
        simp only [noteSuspend, pcEq, eq]
      rw [word_store (l := (s.threads t).goto (.segSuspend (.wait val)))
        (by simp only [act, pcEq, eq]; rfl) rfl
        (fun b off => by rw [note, update_of_ne off])]
      by_cases here : a = (s.threads t).target
      · rw [if_pos here, note]
        subst here
        rw [update_self, Thread.goto_pc, if_neg (by exact nofun),
          Finset.erase_eq_self.mpr out]
        exact Or.inr (SuspendLock.Step.suspend val found)
      · rw [if_neg here]
        exact Or.inl rfl
    · have note : s.noteSuspend t = s.suspender := by simp only [noteSuspend, pcEq, eq]
      exact Or.inl (word_quiet (l := (s.threads t).goto .checkSplit)
        (by simp only [act, pcEq, eq]; rfl) inside.symm note a)
  | resetTarget =>
    obtain ⟨⟨v, held⟩, empty⟩ := acc.drained t (by rw [pcEq]; rfl)
    have note : s.noteSuspend t = update s.suspender (s.threads t).target none := by
      simp only [noteSuspend, pcEq]
    rw [word_store (l := (s.threads t).goto .readDepth) (by simp only [act, pcEq]; rfl) rfl
      (fun b off => by rw [note, update_of_ne off])]
    by_cases here : a = (s.threads t).target
    · rw [if_pos here, note]
      subst here
      rw [update_self, Thread.goto_pc, if_neg (by exact nofun), empty, Finset.erase_empty]
      exact Or.inr (SuspendLock.Step.resume v held empty)
    · rw [if_neg here]
      exact Or.inl rfl
  | getUnlock c => exact absurd pcEq (acc.noUnlock t c)
  | _ => exact Or.inl (word_away acc.alloc.table.fresh (by rw [pcEq]; rfl) a)

theorem Accounted.suspender_other (acc : s.Accounted) {t t' : T} (other : t' ≠ t) {a v : Nat}
    (held : s.suspender a = some (t', v)) : (s.tick h t).suspender a = some (t', v) ∧
      (s.insideOf a = ∅ → (s.tick h t).insideOf a = ∅) := by
  rcases acc.tick_word (h := h) t a with same | step
  · exact ⟨(congrArg Word.susp same).trans held,
      fun empty => (congrArg Word.inside same).trans empty⟩
  · exact ⟨step.susp_other (acc.sound a) held other,
      fun empty => step.inside_empty (acc.sound a) held empty⟩

omit [DecidableEq T] [Fintype T] in
theorem noteSuspend_waits {val : Nat} (waits : (s.threads t).pc = .segSuspend (.wait val)) :
    s.noteSuspend t = s.suspender := by
  simp only [noteSuspend, waits, SuspendLock.suspend]
  split
  · split at * <;> cases ‹_ = Out.storeNext _ _›
  · rfl

omit [DecidableEq T] in
theorem Accounted.waiting_mine (acc : s.Accounted) {t : T} {val : Nat}
    (waits : (act h s.table (s.threads t)).2.pc = .segSuspend (.wait val)) :
    s.noteSuspend t (act h s.table (s.threads t)).2.target = some (t, val) := by
  rcases act_wait waits with before | ⟨c, pcEq, stored⟩
  · rw [act_target_stays (by rw [before]; rfl), noteSuspend_waits before]
    exact acc.waiting t val before
  · rw [act_target_stays (by rw [pcEq]; rfl)]
    simp only [noteSuspend, pcEq, stored, update_self]

theorem Accounted.drained_mine (acc : s.Accounted) {t : T}
    (after : (act h s.table (s.threads t)).2.pc.afterWait = true) :
    (∃ v, s.noteSuspend t (act h s.table (s.threads t)).2.target = some (t, v)) ∧
      (s.tick h t).insideOf (act h s.table (s.threads t)).2.target = ∅ := by
  rcases act_afterWait after with ⟨before, away⟩ | ⟨val, before, done⟩
  · obtain ⟨held, empty⟩ := acc.drained t before
    rw [act_target_stays (Pc.stays_of_afterWait before).1, noteSuspend_away away]
    exact ⟨held, (insideOf_update_same (act_inside away) _ _ _).trans empty⟩
  · have held := acc.waiting t val before
    have empty := (acc.sound _).drained held done
    have same : (act h s.table (s.threads t)).2.inside = (s.threads t).inside := by
      rw [inside_of_pc before, Thread.inside, (Pc.stays_of_afterWait after).2]
      rfl
    rw [act_target_stays (by rw [before]; rfl), noteSuspend_waits before]
    exact ⟨⟨val, held⟩, (insideOf_update_same same _ _ _).trans empty⟩

theorem Accounted.tick (acc : s.Accounted) (t : T) (quiet : (s.threads t).pc = .getCheck →
    (s.threads t).target = s.table.cur.entries (s.threads t).x) : (s.tick h t).Accounted where
  alloc := acc.alloc.tick t
  sound := by
    intro a
    rcases acc.tick_word (h := h) t a with same | step
    · rw [same]
      exact acc.sound a
    · exact step.sound (acc.sound a)
  waiting := by
    refine (Function.forall_update_iff s.threads fun t' l => ∀ val, l.pc = .segSuspend (.wait val) →
      (s.tick h t).suspender l.target = some (t', val)).mpr
        ⟨fun val waits => acc.waiting_mine waits, ?_⟩
    intro t' other val waits
    exact (acc.suspender_other other (acc.waiting t' val waits)).1
  drained := by
    refine (Function.forall_update_iff s.threads fun t' l => l.pc.afterWait = true →
      (∃ v, (s.tick h t).suspender l.target = some (t', v)) ∧
        (s.tick h t).insideOf l.target = ∅).mpr ⟨acc.drained_mine, ?_⟩
    intro t' other after
    obtain ⟨⟨v, held⟩, empty⟩ := acc.drained t' after
    obtain ⟨still, stays⟩ := acc.suspender_other (h := h) other held
    exact ⟨⟨v, still⟩, stays empty⟩
  noUnlock := by
    refine (Function.forall_update_iff s.threads fun _ l => ∀ c, l.pc ≠ .getUnlock c).mpr
      ⟨fun c unlocks => ?_, fun t' _ => acc.noUnlock t'⟩
    rcases act_getUnlock unlocks with ⟨c', before⟩ | ⟨check, moved⟩
    · exact acc.noUnlock t c' before
    · exact moved (quiet check)

theorem Accounted.call (acc : s.Accounted) {t : T} (idle : (s.threads t).pc = .idle) {start : Pc}
    (key : Key) (value : Value) (fresh : start = .readDepth ∨ start = .getSpin) :
    (s.call t start key value).Accounted := by
  have words : ∀ a, (s.call t start key value).insideOf a = s.insideOf a := by
    intro a
    refine insideOf_update_same ?_ _ _ _
    rw [inside_of_pc idle]
    rcases fresh with rfl | rfl <;> rfl
  refine ⟨acc.alloc.call t key value (by rcases fresh with rfl | rfl <;> rfl), fun a => ?_,
    ?_, ?_, ?_⟩
  · unfold word
    rw [words]
    exact acc.sound a
  · refine (Function.forall_update_iff s.threads fun t' l => ∀ val, l.pc = .segSuspend (.wait val) →
      s.suspender l.target = some (t', val)).mpr ⟨fun val waits => ?_, fun t' _ => acc.waiting t'⟩
    rcases fresh with rfl | rfl <;> cases waits
  · refine (Function.forall_update_iff s.threads fun t' l => l.pc.afterWait = true →
      (∃ v, s.suspender l.target = some (t', v)) ∧
        (s.call t start key value).insideOf l.target = ∅).mpr
        ⟨fun after => ?_, fun t' _ after => ?_⟩
    · rcases fresh with rfl | rfl <;> cases after
    · rw [words]
      exact acc.drained t' after
  · refine (Function.forall_update_iff s.threads fun _ l => ∀ c, l.pc ≠ .getUnlock c).mpr
      ⟨fun c unlocks => ?_, fun t' _ => acc.noUnlock t'⟩
    rcases fresh with rfl | rfl <;> cases unlocks

theorem Accounted.step (acc : s.Accounted) (step : QuietStep h s s') : s'.Accounted := by
  cases step with
  | insert t key value idle => exact acc.call idle key value (Or.inl rfl)
  | get t key idle => exact acc.call idle key noneValue (Or.inr rfl)
  | tick t quiet => exact acc.tick t quiet

omit [DecidableEq T] in
theorem accounted_initial {depth : Nat} {tab : Table} (made : Table.construct depth = some tab) :
    (initial T tab).Accounted where
  alloc := alloc_initial made
  sound := by
    intro a
    have empty : (initial T tab).insideOf a = ∅ := Finset.filter_eq_empty_iff.mpr fun t _ => nofun
    show ((tab.segs a).sema : Int) = ((initial T tab).insideOf a).card
    rw [empty, (Table.construct_spec made).2.1 a]
    rfl
  waiting := fun _ _ waits => nomatch waits
  drained := fun _ after => nomatch after
  noUnlock := fun _ _ => nofun

theorem accounted_of_run {depth : Nat} {tab : Table} (made : Table.construct depth = some tab)
    (run : ReflTransGen (QuietStep h) (initial T tab) s) : s.Accounted := by
  induction run with
  | refl => exact accounted_initial made
  | tail _ step ih => exact ih.step step

/-- In every run without the retry path of `Get`: a segment's word is the number of
`Insert` calls inside as long as nobody has suspended it, so (a) when the wait of a
`suspend` ends, and from there to the end of the pass, no call is inside, and (b) a segment
that nobody holds or has suspended has no negative word. -/
theorem sema_counts_inside {depth : Nat} {tab : Table} (made : Table.construct depth = some tab)
    (run : ReflTransGen (QuietStep h) (initial T tab) s) (a : Nat) :
    (s.suspender a = none → (s.table.segs a).sema = (s.insideOf a).card) ∧
    (∀ t val, (s.threads t).target = a → (s.threads t).pc = .segSuspend (.wait val) →
      SuspendLock.suspend (s.table.segs a).sema (.wait val) = .ret true → s.insideOf a = ∅) ∧
    (∀ t, (s.threads t).target = a → (s.threads t).pc.afterWait = true → s.insideOf a = ∅) ∧
    (s.suspender a = none → s.insideOf a = ∅ → 0 ≤ (s.table.segs a).sema) := by
  have acc := accounted_of_run made run
  refine ⟨fun free => (acc.sound a).sema_of_none free, ?_, ?_, ?_⟩
  · rintro t val rfl waits returns
    have done : val = 0 ∨ (s.table.segs (s.threads t).target).sema = -(val : Int) - 1 := by
      by_contra stuck
      simp only [SuspendLock.suspend, if_neg stuck] at returns
      cases returns
    exact (acc.sound _).drained (acc.waiting t val waits) done
  · rintro t rfl after
    exact (acc.drained t after).2
  · intro free empty
    have count : (s.table.segs a).sema = (s.insideOf a).card := (acc.sound a).sema_of_none free
    rw [count]
    exact Int.natCast_nonneg _

/-- One call has suspended and split its segment, another one has locked the other segment. -/
theorem sema_counts_inside_split :
    ∃ (tab : Table) (s : State (Fin 2)), Table.construct 1 = some tab ∧
    ReflTransGen (QuietStep id) (initial (Fin 2) tab) s ∧ (s.table.segs 0).sema = -1 ∧
      s.insideOf 0 = ∅ ∧
      (s.table.segs 1).sema = 1 ∧ (s.suspender 1 = none → (s.insideOf 1).card = 1) := by
  obtain ⟨tab, made⟩ : ∃ tab, Table.construct 1 = some tab := ⟨_, rfl⟩
  obtain ⟨full, stores, two⟩ := Table.twoFull_stores made
  obtain ⟨s₁, run₁, rfl, idle₁, others₁⟩ :=
    quiet_of_calls (t := (0 : Fin 2)) (alloc_initial (T := Fin 2) made) rfl stores.calls
  let l := { s₁.threads 0 with pc := .readDepth, key := 0, value := 1 }
  have low : s₁.table.target id l.key = 0 := two.low
  obtain ⟨s₂, run₂, table₂, threads₂⟩ := run_of_call QuietStep.of_unchecked (.insert s₁ 0 0 1 idle₁)
    (@Alone.splits id Thread.Unchecked _ s₁.table l nofun (two.idle _ (two.inv.index_lt 0))
      (two.inv.crowded (low ▸ two.lowFull)))
  have split₂ : s₂.table = s₁.table.splitOff id 0 := table₂.trans (by rw [low])
  have idle₂ : (s₂.threads 1).pc = .idle := by
    rw [threads₂, update_of_ne Fin.zero_ne_one.symm, others₁ 1 (by decide)]
    rfl
  let m := { s₂.threads 1 with key := highKey, value := 1 }
  have high : s₂.table.target id m.key = 1 := by
    rw [split₂]
    exact two.high
  have zero : (s₂.table.segs (s₂.table.target id m.key)).sema = 0 := by
    rw [high, split₂, two.split_high, two.high_sema]
  obtain ⟨s, run₃, table₃, threads₃⟩ :=
    run_of_call QuietStep.of_unchecked (.insert s₂ 1 highKey 1 idle₂)
    (Alone.locked (l := m) zero.ge)
  have final : s.table = s₂.table.setSema 1 1 := table₃.trans (by rw [zero, high]; rfl)
  have run := (run₁.trans run₂).trans run₃
  have one : (s.table.segs 1).sema = 1 := by rw [final, Table.setSema_at]
  refine ⟨tab, s, made, run, ?_, ?_, one, fun free => ?_⟩
  · have old := Table.splitOff_old id s₁.table 0 (show 0 < s₁.table.nseg by rw [two.nseg]; decide)
    rw [final, split₂, Table.setSema, Table.setSeg_segs, update_of_ne (by decide), old,
      if_pos rfl]
  · have mine : s.threads 0 = { l.read id s₁.table with
        s0 := s₁.table.nseg, s1 := s₁.table.nseg + 1, pc := .compareDepth } := by
      rw [threads₃, update_of_ne Fin.zero_ne_one, threads₂, update_self]
    exact (sema_counts_inside made run 0).2.2.1 0 (by rw [mine]; exact two.low) (by rw [mine]; rfl)
  · have count := (sema_counts_inside made run 1).1 free
    rw [one] at count
    omega

omit [Fintype T] in
theorem tick_get (s : State T) (t : T) {l : Thread} {e : Effect} (l' : Thread)
    (get : l.pc = .getCheck ∨ ∃ c, l.pc = .getUnlock c) (eq : act h s.table l = (e, l')) :
    Step h { s with threads := update s.threads t l }
      ⟨e.apply h s.table, update s.threads t l', s.suspender⟩ := by
  have step := Step.tick (h := h) { s with threads := update s.threads t l } t
  have mine : ({ s with threads := update s.threads t l } : State T).threads t = l :=
    update_self ..
  have note : ({ s with threads := update s.threads t l } : State T).noteSuspend t =
      s.suspender := by
    rcases get with pc | ⟨c, pc⟩ <;> simp only [noteSuspend, update_self, pc]
  rwa [tick_eq (by rw [mine, eq]), note, update_idem] at step

omit [Fintype T] in
theorem get_retry (check : (s.threads t).pc = .getCheck)
    (moved : (s.threads t).target ≠ s.table.cur.entries (s.threads t).x) :
    ReflTransGen (Step h) s
      ⟨s.table.setSema (s.threads t).target ((s.table.segs (s.threads t).target).sema - 1),
        update s.threads t ((s.threads t).goto .getSpin), s.suspender⟩ := by
  generalize mine : s.threads t = l at check moved
  have cas : SuspendLock.unlock (s.table.segs l.target).sema (.cas (s.table.segs l.target).sema) =
      .storeRet ((s.table.segs l.target).sema - 1) true := if_pos rfl
  have one := tick_get (h := h) s t (l.goto (.getUnlock .load)) (Or.inl check)
    (by simp only [act, check, if_neg moved]; rfl)
  have two := tick_get (h := h) s t (l := l.goto (.getUnlock .load))
    (l.goto (.getUnlock (.cas (s.table.segs l.target).sema))) (Or.inr ⟨_, rfl⟩) rfl
  have three := tick_get (h := h) s t (l := l.goto (.getUnlock (.cas (s.table.segs l.target).sema)))
    (e := .sema l.target ((s.table.segs l.target).sema - 1)) (l.goto .getSpin) (Or.inr ⟨_, rfl⟩)
    (by simp only [act, Thread.goto_pc, Thread.goto_target, cas]; rfl)
  have start : s = { s with threads := update s.threads t l } := by
    rw [← mine, update_eq_self]
  have all : ReflTransGen (Step h) { s with threads := update s.threads t l } _ :=
    .head one (.head two (.single three))
  rwa [← start] at all

/-- A `Get` of the upper half reads its segment, another call doubles the directory, and the
retry takes a unit from a word that nobody holds. -/
theorem get_retry_lowers_sema : ∃ (tab : Table) (s : State (Fin 2)), Table.construct 1 = some tab ∧
    ReflTransGen (Step id) (initial (Fin 2) tab) s ∧ s.table.cur.depth = 2 ∧
      s.table.cur.entries 2 = 1 ∧
      s.suspender 1 = none ∧ s.insideOf 1 = ∅ ∧ (s.table.segs 1).sema = -1 := by
  obtain ⟨tab, made⟩ : ∃ tab, Table.construct 1 = some tab := ⟨_, rfl⟩
  obtain ⟨full, stores, two⟩ := Table.twoFull_stores made
  -- thread 0 fills both windows, thread 1 starts its `Get`
  obtain ⟨s₁, run₁, rfl, idle₁, others₁⟩ :=
    quiet_of_calls (t := (0 : Fin 2)) (alloc_initial (T := Fin 2) made) rfl stores.calls
  have idle : (s₁.threads 1).pc = .idle := by
    rw [others₁ 1 (by decide)]
    rfl
  let l := { s₁.threads 1 with key := highKey, value := noneValue }
  obtain ⟨s₂, run₂, table₂, threads₂⟩ :=
    run_of_call QuietStep.of_unchecked (.get s₁ 1 highKey idle)
      (Alone.getReads (h := id) (l := l) two.inv.free.ge)
  -- thread 0 doubles the directory
  have idle₂ : (s₂.threads 0).pc = .idle := by
    rw [threads₂, update_of_ne Fin.zero_ne_one]
    exact idle₁
  let m := { s₂.threads 0 with pc := .readDepth, key := 0, value := 1 }
  obtain ⟨m', alone, _⟩ :=
    Alone.retry_of_attempt (h := id) (l := m) (two.inv.target_lt 0) rfl (two.doubles 1)
  rw [← show s₂.table = s₁.table from table₂] at alone two
  obtain ⟨s₃, run₃, table₃, threads₃⟩ :=
    run_of_call QuietStep.of_unchecked (.insert s₂ 0 0 1 idle₂) alone
  have mine : s₃.threads 1 = (l.read id s₂.table).goto .getCheck := by
    rw [threads₃, update_of_ne Fin.zero_ne_one.symm, threads₂, update_self,
      show s₂.table = s₁.table from table₂]
  have target : (s₃.threads 1).target = 1 := by
    rw [mine]
    exact two.high
  have grown : s₃.table = s₂.table.doubleDir id 0 := table₃
  have zero : (s₃.table.segs 1).sema = 0 := by rw [grown, two.grown_high, two.high_sema]
  -- up to here every word counts its holders
  have quiet := (run₁.trans run₂).trans run₃
  have acc := accounted_of_run made quiet
  have free : s₃.suspender 1 = none := (acc.sound 1).susp_of_nonneg zero.ge
  have empty : s₃.insideOf 1 = ∅ := by
    have count : (s₃.table.segs 1).sema = (s₃.insideOf 1).card := (acc.sound 1).sema_of_none free
    rw [zero] at count
    exact Finset.card_eq_zero.mp (by omega)
  have check : (s₃.threads 1).pc = .getCheck := by rw [mine]; rfl
  have moved : (s₃.threads 1).target ≠ s₃.table.cur.entries (s₃.threads 1).x := by
    have x : (s₃.threads 1).x = 1 := by
      rw [mine]
      show index s₂.table.cur.depth highKey = 1
      rw [two.depth]
      rfl
    rw [target, x, grown, two.grown_entries.2.1]
    decide
  have run := run_of_quiet quiet
  have last := get_retry (h := id) check moved
  rw [target, zero] at last
  refine ⟨tab, _, made, run.trans last, ?_, ?_, free, ?_, ?_⟩
  · rw [Table.setSema_cur, grown, two.grown_depth]
  · rw [Table.setSema_cur, grown, two.grown_entries.2.2.1]
  · rw [insideOf_update_same (by rw [inside_of_pc check]; rfl)]
    exact empty
  · rw [Table.setSema_at]
    rfl

end State

end Xcache.CCEH
