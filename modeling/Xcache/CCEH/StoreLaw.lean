import Xcache.CCEH.Doubling
import Xcache.Store.KV

/-! What `KV::Get` answers over the extendible hash table after a sequence of
`KV::Insert` calls. -/

namespace Xcache.CCEH
open Function
open Blocks (top)

namespace Segment

/-- A split of the segment loses no live pair. -/
def KeepsPairs (h : Key → BitVec 64) (s : Segment) : Prop :=
  ∀ i, (s.slots i).Live → ∃ j, (s.child h (s.slots i).key).slots j = s.slots i

end Segment

namespace Table
variable {h : Key → BitVec 64} {t : Table}

/-- The table holds exactly what the map says. -/
structure Agrees (h : Key → BitVec 64) (t : Table) (m : Key → Option Value) : Prop where
  sound : ∀ key ≠ invalidKey, ∀ i, ((t.segs (t.target h key)).slots i).key = key →
    ∃ value, m key = some value ∧ (t.segs (t.target h key)).slots i = ⟨key, some value⟩
  complete : ∀ key value, m key = some value →
    ∃ i, (t.segs (t.target h key)).slots i = ⟨key, some value⟩
  keys : ∀ key value, m key = some value → key ≠ invalidKey ∧ value ≠ noneValue

/-- The splits that a call makes before it finds room lose no pair. -/
def SplitsKeep (h : Key → BitVec 64) (t : Table) (key : Key) : Prop :=
  ∀ n, (∀ m ≤ n, ¬ ((t.segs (t.target h key)).descend h key m).HasRoom h key) →
    ((t.segs (t.target h key)).descend h key n).KeepsPairs h

/-- The call finds its key absent or with the same value, returns, and loses nothing. -/
structure Clean (h : Key → BitVec 64) (t : Table) (key : Key) (value : Value) : Prop where
  same : t.get h key = some noneValue ∨ t.get h key = some value
  room : Room h t key
  keeps : SplitsKeep h t key

/-- Every call of a sequence is clean in the state it starts from. -/
def AllClean (h : Key → BitVec 64) : Table → List (Key × Value) → Prop
  | _, [] => True
  | t, op :: ops => Clean h t op.1 op.2 ∧ ∀ t', t.Returns h op.1 op.2 t' → AllClean h t' ops

/-- The map that a sequence of insertions stands for. -/
def lastValue (m : Key → Option Value) (ops : List (Key × Value)) : Key → Option Value :=
  ops.foldl (fun m op => update m op.1 (some op.2)) m

theorem Agrees.get (inv : Inv h t) {m : Key → Option Value} (agrees : Agrees h t m) {key : Key}
    (live : key ≠ invalidKey) : t.get h key = some ((m key).getD noneValue) := by
  have open_ : ¬ t.cur.sema < 0 := by rw [inv.free]; decide
  simp only [Table.get, if_neg open_]
  cases found : (windowSlots (window (h key))).find?
      fun i => decide (((t.segs (t.target h key)).slots i).key = key) with
  | some i =>
    have here : ((t.segs (t.target h key)).slots i).key = key := by
      simpa using List.find?_some found
    obtain ⟨value, entry, slot⟩ := agrees.sound key live i here
    simp only [slot, entry, Option.getD_some]
  | none =>
    cases entry : m key with
    | none => rfl
    | some v =>
      obtain ⟨i, slot⟩ := agrees.complete key v entry
      have mem : i ∈ windowSlots (window (h key)) := by
        have placed := inv.target_placed key i (by rw [slot]; exact live)
        rw [slot] at placed
        exact placed.2
      have away := List.find?_eq_none.mp found i mem
      simp [slot] at away

theorem agrees_construct {depth : Nat} (made : construct depth = some t) :
    Agrees h t fun _ => none := by
  refine ⟨fun key live i here => ?_, fun _ _ none => (by cases none), fun _ _ none =>
    (by cases none)⟩
  rw [(construct_spec made).2.1] at here
  exact absurd here.symm live

theorem Agrees.moved {m : Key → Option Value} (agrees : Agrees h t m) {key : Key} {t' : Table}
    (moved : Moved h t key t')
    (keeps : (t.segs (t.target h key)).KeepsPairs h) : Agrees h t' m := by
  obtain ⟨low, high⟩ := Segment.split_origin (h := h) (t.segs (t.target h key))
  have origin : ∀ other i, (((t.segs (t.target h key)).child h other).slots i).Live →
      ∃ j, (t.segs (t.target h key)).slots j =
        ((t.segs (t.target h key)).child h other).slots i := by
    intro other i
    unfold Segment.child
    split
    · exact high i
    · exact low i
  refine ⟨fun other live i here => ?_, fun other value entry => ?_, agrees.keys⟩
  · rw [moved other] at here ⊢
    split at here
    · rename_i same
      rw [if_pos same]
      obtain ⟨j, eq⟩ := origin other i (by rw [Pair.Live, here]; exact live)
      rw [← eq] at here ⊢
      rw [← same] at here ⊢
      exact agrees.sound other live j here
    · rename_i away
      rw [if_neg away]
      exact agrees.sound other live i here
  · obtain ⟨i, slot⟩ := agrees.complete other value entry
    rw [moved other]
    split
    · rename_i same
      rw [same] at slot
      have kept := keeps i (by rw [slot]; exact (agrees.keys other value entry).1)
      rwa [slot] at kept
    · exact ⟨i, slot⟩

theorem Agrees.store {m : Key → Option Value} (agrees : Agrees h t m) {key : Key} {value : Value}
    (live : key ≠ invalidKey) (some : value ≠ noneValue) (same : m key = none ∨ m key = .some value)
    {i : Fin kNumSlot} (free : ¬ ((t.segs (t.target h key)).slots i).Live) :
    Agrees h (t.setSeg (t.target h key) ((t.segs (t.target h key)).set i ⟨key, .some value⟩))
      (update m key (.some value)) := by
  have targets : ∀ other, (t.setSeg (t.target h key)
      ((t.segs (t.target h key)).set i ⟨key, .some value⟩)).target h other = t.target h other :=
        fun _ => rfl
  refine ⟨fun other alive j here => ?_, fun other v entry => ?_, fun other v entry => ?_⟩
  · rw [targets, setSeg_segs] at here ⊢
    by_cases there : t.target h other = t.target h key
    · rw [there, update_self, Segment.set_slots] at here ⊢
      by_cases slot : j = i
      · rw [slot, update_self] at here ⊢
        subst here
        exact ⟨value, update_self .., rfl⟩
      · rw [update_of_ne slot] at here ⊢
        rw [← there] at here ⊢
        obtain ⟨v, entry, eq⟩ := agrees.sound other alive j here
        by_cases equal : other = key
        · subst equal
          rcases same with none | again
          · cases none.symm.trans entry
          · refine ⟨value, update_self .., ?_⟩
            rw [eq, Option.some.inj (entry.symm.trans again)]
        · exact ⟨v, by rwa [update_of_ne equal], eq⟩
    · rw [update_of_ne there] at here ⊢
      obtain ⟨v, entry, eq⟩ := agrees.sound other alive j here
      have differ : other ≠ key := fun equal => there (by rw [equal])
      exact ⟨v, by rwa [update_of_ne differ], eq⟩
  · rw [targets, setSeg_segs]
    by_cases equal : other = key
    · subst equal
      rw [update_self] at entry
      cases entry
      exact ⟨i, by rw [update_self, Segment.set_slots, update_self]⟩
    · rw [update_of_ne equal] at entry
      obtain ⟨j, slot⟩ := agrees.complete other v entry
      refine ⟨j, ?_⟩
      by_cases there : t.target h other = t.target h key
      · rw [there] at slot
        have apart : j ≠ i := by
          rintro rfl
          exact free (by rw [slot]; exact (agrees.keys other v entry).1)
        rw [there, update_self, Segment.set_slots, update_of_ne apart, slot]
      · rw [update_of_ne there, slot]
  · by_cases equal : other = key
    · subst equal
      rw [update_self] at entry
      cases entry
      exact ⟨live, some⟩
    · rw [update_of_ne equal] at entry
      exact agrees.keys other v entry

/-- A clean call ends with its pair in the map; the induction is on the splits it makes. -/
theorem Agrees.call {m : Key → Option Value} {key : Key} {value : Value} {n : Nat} (inv : Inv h t)
    (idle : t.Idle) (agrees : Agrees h t m) (live : key ≠ invalidKey) (some : value ≠ noneValue)
    (same : m key = none ∨ m key = .some value)
    (bound : (t.segs (t.target h key)).localDepth + n ≤ 32)
    (narrow : n = 0 ∨ t.cur.depth - (t.segs (t.target h key)).localDepth ≤ 30)
    (has : ((t.segs (t.target h key)).descend h key n).HasRoom h key) (keeps : SplitsKeep h t key) :
    ∃ t', t.Returns h key value t' ∧ Agrees h t' (update m key (.some value)) := by
  induction n generalizing t with
  | zero =>
    obtain ⟨i, _, free, eq⟩ := inv.store_pass idle value has
    exact ⟨_, ⟨1, insertLoop_stored h eq Nat.one_pos⟩, agrees.store live some same free⟩
  | succ n ih =>
    by_cases now : (t.segs (t.target h key)).HasRoom h key
    · obtain ⟨i, _, free, eq⟩ := inv.store_pass idle value now
      exact ⟨_, ⟨1, insertLoop_stored h eq Nat.one_pos⟩, agrees.store live some same free⟩
    · have full := Option.eq_none_iff_forall_ne_some.mpr
        (not_exists.mp ((inv.hasRoom_iff key).not.mp now))
      obtain ⟨t₁, eq, inv₁, idle₁, moved, narrow₁⟩ := inv.split_pass idle value full (by omega)
        (narrow.resolve_left (Nat.succ_ne_zero n))
      have kept := keeps 0 fun l le => by rwa [Nat.le_zero.mp le]
      have later : SplitsKeep h t₁ key := by
        intro l none
        rw [moved.child] at none ⊢
        refine keeps (l + 1) fun l' le => ?_
        cases l' with
        | zero => exact now
        | succ l' => exact none l' (by omega)
      obtain ⟨t', ⟨fuel, returned⟩, agrees'⟩ := ih inv₁ idle₁ (agrees.moved moved kept)
        (by rw [moved.child, child_localDepth]; omega)
        (Or.inr (by rwa [moved.child, child_localDepth])) (by rw [moved.child]; exact has) later
      exact ⟨t', ⟨fuel + 1, (insertLoop_retry h eq fuel).trans returned⟩, agrees'⟩

theorem Clean.call {m : Key → Option Value} {key : Key} {value : Value} (inv : Inv h t)
    (idle : t.Idle) (agrees : Agrees h t m) (live : key ≠ invalidKey) (some : value ≠ noneValue)
    (clean : Clean h t key value) :
    ∃ t', t.Returns h key value t' ∧ Agrees h t' (update m key (.some value)) := by
  obtain ⟨n, bound, narrow, has⟩ := clean.room
  refine agrees.call inv idle live some ?_ bound narrow has clean.keeps
  have same := clean.same
  rw [agrees.get inv live] at same
  cases entry : m key with
  | none => exact Or.inl rfl
  | some v =>
    rw [entry] at same
    rcases same with missing | again
    · exact absurd (Option.some.inj missing) (agrees.keys key v entry).2
    · exact Or.inr again

/-- Over a sequence of clean calls the table is the map of last values. -/
theorem AllClean.run {ops : List (Key × Value)} {m : Key → Option Value} (inv : Inv h t)
    (idle : t.Idle) (agrees : Agrees h t m)
    (valid : ∀ op ∈ ops, op.1 ≠ invalidKey ∧ op.2 ≠ noneValue) (clean : AllClean h t ops)
    (bf : Option CountingBloomFilter) :
    ∃ kv, (⟨t, bf⟩ : KV Table).insertAll (hash h) ops = some kv ∧ Inv h kv.hash ∧
      Agrees h kv.hash (lastValue m ops) := by
  induction ops generalizing t m bf with
  | nil => exact ⟨_, rfl, inv, agrees⟩
  | cons op ops ih =>
    obtain ⟨live, some⟩ := valid op (by simp)
    obtain ⟨t', returned, agrees'⟩ := clean.1.call inv idle agrees live some
    have after := returned
    obtain ⟨fuel, loop⟩ := returned
    obtain ⟨_, inv', idle'⟩ := insertLoop_spec inv idle loop
    have inserted := insert_of_returns inv idle after
    obtain ⟨kv, run, result⟩ := ih inv' idle' agrees' (fun op' later => valid op' (by simp [later]))
      (clean.2 t' after) (bf.map fun bf => KV.updateFilter bf op.1 (-1))
    refine ⟨kv, ?_, result⟩
    simp only [KV.insertAll, KV.insert, hash, inserted]
    exact run

/-- The store law: after clean calls every key other than the free marker answers its last
value, or NONE when it was never inserted. -/
theorem get_last_value {depth : Nat} (pos : 1 ≤ depth) {t₀ : Table}
    (made : construct depth = some t₀) (bf : Option CountingBloomFilter) (ops : List (Key × Value))
    (valid : ∀ op ∈ ops, op.1 ≠ invalidKey ∧ op.2 ≠ noneValue) (clean : AllClean h t₀ ops) :
    ∃ kv, (⟨t₀, bf⟩ : KV Table).insertAll (hash h) ops = some kv ∧ ∀ key ≠ invalidKey,
      kv.get (hash h) key = some ((lastValue (fun _ => none) ops key).getD noneValue) := by
  obtain ⟨kv, run, inv, agrees⟩ := clean.run (inv_construct (h := h) pos made) (idle_construct made)
    (agrees_construct made) valid bf
  exact ⟨kv, run, fun key live => agrees.get inv live⟩

theorem Clean.stored {m : Key → Option Value} (inv : Inv h t) (idle : t.Idle)
    (agrees : Agrees h t m) {key : Key} {value : Value} (live : key ≠ invalidKey)
    (some : value ≠ noneValue) (same : m key = none ∨ m key = .some value) {t' : Table}
    (stored : t.attempt h key value = .stored t') :
    Clean h t key value ∧ Agrees h t' (update m key (.some value)) := by
  have returned := insertLoop_stored h stored Nat.one_pos
  rcases inv.attempt_cases key value with ⟨_, eq⟩ | ⟨_,
    ⟨i, found, eq⟩ | ⟨_, ⟨_, ⟨_, eq⟩ | ⟨_, eq⟩⟩ | ⟨_, eq⟩⟩⟩
  · cases eq.symm.trans stored
  · have has := (inv.hasRoom_iff key).mpr ⟨i, found⟩
    obtain rfl := Attempt.stored.inj (eq.symm.trans stored)
    rw [← inv.pattern_eq key] at found
    refine ⟨⟨?_, (insertLoop_spec inv idle returned).1, fun n full =>
      absurd has (full 0 (Nat.zero_le n))⟩,
      agrees.store live some same (not_not_intro (inv.findSlot_free found).2)⟩
    rw [agrees.get inv live]
    rcases same with missing | again
    · exact Or.inl (by rw [missing]; rfl)
    · exact Or.inr (by rw [again]; rfl)
  · cases eq.symm.trans stored
  · cases eq.symm.trans stored
  · cases eq.symm.trans stored

/-- Calls that store the same value each in their first pass are clean. -/
theorem AllClean.of_stores {ops rest : List (Key × Value)} {t' : Table} (stores : Stores h t ops t')
    {m : Key → Option Value} (inv : Inv h t) (idle : t.Idle) (agrees : Agrees h t m) {value : Value}
    (valid : ∀ op ∈ ops, op.1 ≠ invalidKey ∧ op.2 = value) (some : value ≠ noneValue)
    (same : ∀ key, m key = none ∨ m key = .some value)
    (clean : Agrees h t' (lastValue m ops) → AllClean h t' rest) : AllClean h t (ops ++ rest) := by
  induction stores generalizing m with
  | nil => exact clean agrees
  | @cons t t₁ t' key v ops stored _ ih =>
    obtain ⟨live, rfl⟩ := valid (key, v) List.mem_cons_self
    obtain ⟨now, agrees'⟩ := Clean.stored inv idle agrees live some (same key) stored
    have returned := insertLoop_stored h stored Nat.one_pos
    obtain ⟨_, inv', idle'⟩ := insertLoop_spec inv idle returned
    refine ⟨now, fun t'' returns => ?_⟩
    obtain rfl : t'' = t₁ := by
      have one := insert_of_returns inv idle returns
      rw [insert_of_returns inv idle ⟨1, returned⟩] at one
      exact (Prod.mk.inj (Option.some.inj one)).1.symm
    refine ih inv' idle' agrees' (fun op mem => valid op (List.mem_cons_of_mem _ mem))
      (fun k => ?_) clean
    by_cases here : k = key
    · rw [here]
      exact Or.inr (update_self ..)
    · rw [update_of_ne here]
      exact same k

theorem TwoFull.keepsPairs (two : t.TwoFull) : (t.segs 0).KeepsPairs id := by
  intro i live
  obtain ⟨j, _, stored⟩ :=
    Segment.stored_of_not_dropped live (two.kept (show 0 < 2 by decide) i live)
  exact ⟨j, stored⟩

/-- Key 0 is inserted over and over, at last with a split that separates it from `midKey`. -/
theorem get_last_value_doubled : ∃ t₀ t kv, construct 1 = some t₀ ∧ Stores id t₀ twoWindows t ∧
    t.attempt id 0 1 = .retry (t.doubleDir id 0) ∧
    (⟨t₀, none⟩ : KV Table).insertAll (hash id) (twoWindows ++ [(0, 1)]) = some kv ∧
    kv.get (hash id) 0 = some 1 ∧ kv.get (hash id) midKey = some 1 ∧
      kv.get (hash id) highKey = some 1 ∧
    kv.get (hash id) 7 = some noneValue := by
  obtain ⟨t₀, made⟩ : ∃ t₀, construct 1 = some t₀ := ⟨_, rfl⟩
  obtain ⟨t, stores, two⟩ := twoFull_stores made
  have clean : AllClean id t₀ (twoWindows ++ [(0, 1)]) := by
    refine .of_stores stores (inv_construct (le_refl 1) made) (idle_construct made)
      (agrees_construct made)
      (fun op mem => ⟨(twoWindows_valid op mem).1, (twoWindows_valid op mem).2.2⟩)
        (show (1 : Value) ≠ noneValue by decide)
      (fun _ => Or.inl rfl) fun agrees => ?_
    refine ⟨⟨Or.inr ?_, ?_, fun n full => ?_⟩, fun _ _ => trivial⟩
    · exact agrees.get two.inv (by decide)
    · refine ⟨1, by rw [two.atTop, two.depth]; decide,
        Or.inr (by rw [two.atTop, Nat.sub_self]; decide), ?_⟩
      rw [two.low]
      exact two.room
    · rw [two.low] at full ⊢
      cases n with
      | zero => exact two.keepsPairs
      | succ n => exact absurd two.room (full 1 (Nat.succ_le_succ (Nat.zero_le n)))
  have valid : ∀ op ∈ twoWindows ++ [(0, 1)], op.1 ≠ invalidKey ∧ op.2 ≠ noneValue := by
    intro op mem
    rcases List.mem_append.mp mem with early | last
    · obtain ⟨live, _, value⟩ := twoWindows_valid op early
      exact ⟨live, by rw [value]; decide⟩
    · rw [List.mem_singleton.mp last]
      decide
  obtain ⟨kv, run, answers⟩ :=
    get_last_value (le_refl 1) made none (twoWindows ++ [(0, 1)]) valid clean
  exact ⟨t₀, t, kv, made, stores, two.doubles 1, run, answers 0 (by decide),
    answers midKey (by decide), answers highKey (by decide), answers 7 (by decide)⟩

/-- A key inserted twice keeps answering its first value. -/
theorem get_first_value_of_two : ((construct 1).bind fun t₀ =>
    ((⟨t₀, none⟩ : KV Table).insertAll (hash id) [(7, 1), (7, 2)]).bind fun kv =>
      kv.get (hash id) 7) =
      some 1 ∧ lastValue (fun _ => none) [(7, 1), (7, 2)] 7 = some 2 := by
  constructor <;> decide +kernel

end Table

end Xcache.CCEH
