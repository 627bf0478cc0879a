import Xcache.Pair
import Xcache.Lib.Dyadic

/-! What `KV` and `NUMA_KV` do with extents (`KV.cpp`, `NuMA_KV.cpp`), over a table that is a
correct map. An extent is found through the first keys of the pieces it is cut into. -/

namespace Xcache

/-- The keys of an extent. -/
structure Span where
  key : Key
  len : BitVec 64

namespace Span

def range (span : Span) : Range := ⟨span.key.toNat, span.len.toNat⟩

/-- At least one key, and no key past the largest one. -/
def Proper (span : Span) : Prop := 1 ≤ span.len.toNat ∧ span.key.toNat + span.len.toNat ≤ 2 ^ 64

instance (span : Span) : Decidable span.Proper :=
  inferInstanceAs (Decidable (1 ≤ span.len.toNat ∧ span.key.toNat + span.len.toNat ≤ 2 ^ 64))

end Span

structure Extent extends Span where
  value : Value

/-- A table that maps a key to a pointer, or to `NONE`. -/
abbrev PtrMap := Key → Option Nat

/-- The objects that `new Extent` has made, and the table with pointers to them. -/
structure ExtentStore where
  heap : List Extent
  table : PtrMap

namespace ExtentStore

def empty : ExtentStore := ⟨[], fun _ => none⟩

/-- `InsertExtent` over the table's `Insert_extent`, which is `none` when it does not return. -/
def insertExtent (insert : PtrMap → Span → Nat → Option PtrMap) (s : ExtentStore)
    (extent : Extent) : Option ExtentStore :=
  (insert s.table extent.toSpan s.heap.length).map fun table => ⟨s.heap ++ [extent], table⟩

/-- `GetExtent` over the table's `Get_extent`. It is `none` when it follows a pointer to no
object. -/
def getExtent (get : PtrMap → Key → Option Nat) (s : ExtentStore) (key : Key) : Option Value :=
  match get s.table key with
  | none => some noneValue
  | some ptr => s.heap[ptr]?.map fun extent => extent.value + 4096 * (key - extent.key)

def insertAll (insertExtent : ExtentStore → Extent → Option ExtentStore) :
    ExtentStore → List Extent → Option ExtentStore
  | s, [] => some s
  | s, extent :: rest => (insertExtent s extent).bind fun s' => insertAll insertExtent s' rest

end ExtentStore

def Starts (pieces : List Range) (key : Key) : Prop := ∃ p ∈ pieces, p.start = key.toNat

instance (pieces : List Range) (key : Key) : Decidable (Starts pieces key) :=
  inferInstanceAs (Decidable (∃ p ∈ pieces, p.start = key.toNat))

theorem starts_cons {first key : Key} {size : Nat} {rest : List Range} :
    Starts (⟨first.toNat, size⟩ :: rest) key ↔ key = first ∨ Starts rest key := by
  unfold Starts
  rw [List.exists_mem_cons_iff]
  exact or_congr_left ⟨fun eq => (BitVec.eq_of_toNat_eq eq).symm, fun eq => by rw [eq]⟩

/-- The table after the pointer has been stored where each piece begins. -/
def writeStarts {P : Type} (table : Key → Option P) (pieces : List Range)
    (value : P) : Key → Option P :=
  fun key => if Starts pieces key then some value else table key

theorem writeStarts_nil {P : Type} (table : Key → Option P) (value : P) :
    writeStarts table [] value = table := by
  funext key
  exact if_neg fun ⟨_, mem, _⟩ => by cases mem

theorem writeStarts_cons {P : Type} (table : Key → Option P) (first : Key) (size : Nat)
    (rest : List Range) (value : P) :
    writeStarts table (⟨first.toNat, size⟩ :: rest) value =
      writeStarts (Function.update table first (some value)) rest value := by
  funext key
  unfold writeStarts
  rw [if_congr starts_cons rfl rfl]
  by_cases here : key = first <;> simp [here]

theorem tiles_cons {key len size : BitVec 64} {rest : List Range} (pos : 0 < size.toNat)
    (le : size.toNat ≤ len.toNat) (proper : key.toNat + len.toNat ≤ 2 ^ 64)
    (last : len - size = 0#64 → rest = [])
    (more : (key + size).toNat + (len - size).toNat ≤ 2 ^ 64 →
      Range.Tiles rest ⟨(key + size).toNat, (len - size).toNat⟩) :
    Range.Tiles (⟨key.toNat, size.toNat⟩ :: rest) ⟨key.toNat, len.toNat⟩ := by
  have left : (len - size).toNat = len.toNat - size.toNat := BitVec.toNat_sub_of_le le
  have split : len.toNat = size.toNat + (len - size).toNat := by omega
  rw [split]
  refine .cons pos ?_
  rcases Nat.eq_zero_or_pos (len - size).toNat with zero | some
  · rw [zero, last (BitVec.eq_of_toNat_eq zero)]
    exact .nil _
  · have next : (key + size).toNat = key.toNat + size.toNat := BitVec.toNat_add_of_lt (by omega)
    rw [← next]
    exact more (by omega)

/-- Induction over the steps that take a nonempty piece from the front. -/
theorem span_induct {motive : Key → BitVec 64 → Prop} (nil : ∀ key, motive key 0#64)
    (cons : ∀ key len, 0 < len.toNat → (∀ size, 0 < size.toNat → size.toNat ≤ len.toNat →
      motive (key + size) (len - size)) → motive key len)
    (key : Key) (len : BitVec 64) : motive key len := by
  induction hn : len.toNat using Nat.strongRecOn generalizing key len with
  | ind n ih =>
    subst hn
    rcases Nat.eq_zero_or_pos len.toNat with zero | pos
    · rw [BitVec.eq_of_toNat_eq (y := 0#64) zero]
      exact nil key
    · refine cons key len pos fun size lower upper => ih _ ?_ _ _ rfl
      rw [BitVec.toNat_sub_of_le upper]
      omega

/-- An `Insert_extent` that cuts the spans with `ok` into `pieces` and stores the pointer where
each one begins. -/
structure Cuts (insert : PtrMap → Span → Nat → Option PtrMap) (ok : Span → Prop)
    (pieces : Span → List Range) : Prop where
  tiles : ∀ span, ok span → Range.Tiles (pieces span) span.range
  insert : ∀ table span ptr, ok span → insert table span ptr =
    some (writeStarts table (pieces span) ptr)

/-- The table has the pointer of a span at the starts of its pieces, and nothing else. -/
def Filled (pieces : Span → List Range) (spans : List Span) (table : PtrMap) : Prop :=
  ∀ key i, table key = some i ↔ ∃ span, spans[i]? = some span ∧ Starts (pieces span) key

section
variable {insert : PtrMap → Span → Nat → Option PtrMap} {get : PtrMap → Key → Option Nat}
  {ok : Span → Prop}
  {pieces : Span → List Range} {spans : List Span} {table : PtrMap} {key : Key}

theorem Starts.has {span : Span} (tiles : Range.Tiles (pieces span) span.range)
    (starts : Starts (pieces span) key) :
    span.range.Has key.toNat := by
  obtain ⟨p, mem, eq⟩ := starts
  rw [← eq]
  exact (tiles.has_start mem).of_inside (tiles.inside mem)

theorem filled_empty : Filled pieces [] ExtentStore.empty.table := by
  intro key i
  simp [ExtentStore.empty]

theorem Filled.concat {span : Span} (filled : Filled pieces spans table)
    (fresh : ∀ old ∈ spans, ∀ key, Starts (pieces old) key → ¬ Starts (pieces span) key) :
    Filled pieces (spans ++ [span]) (writeStarts table (pieces span) spans.length) := by
  intro key i
  unfold writeStarts
  by_cases starts : Starts (pieces span) key
  · rw [if_pos starts, Option.some_inj]
    constructor
    · rintro rfl
      exact ⟨span, List.getElem?_concat_length, starts⟩
    · rintro ⟨span', there, starts'⟩
      by_contra other
      obtain ⟨lt, _⟩ := List.getElem?_eq_some_iff.mp there
      rw [List.length_append, List.length_singleton] at lt
      rw [List.getElem?_append_left (by omega)] at there
      exact fresh span' (List.mem_of_getElem? there) key starts' starts
  · rw [if_neg starts, filled key i]
    refine exists_congr fun span' => and_congr_left fun starts' => ?_
    rcases Nat.lt_or_ge i spans.length with lt | ge
    · rw [List.getElem?_append_left lt]
    · rw [List.getElem?_eq_none ge, List.getElem?_append_right ge, List.getElem?_singleton]
      split
      · refine iff_of_false (Option.some_ne_none _).symm fun eq => starts ?_
        rwa [Option.some_inj.mp eq]
      · rfl

theorem Filled.eq {table' : PtrMap} (filled : Filled pieces spans table)
    (filled' : Filled pieces spans table') :
    table = table' := by
  funext key
  exact Option.ext fun i => (filled key i).trans (filled' key i).symm

namespace Cuts
variable (cuts : Cuts insert ok pieces)
include cuts

theorem insertExtent {s : ExtentStore} {extent : Extent} (good : ok extent.toSpan)
    (filled : Filled pieces (s.heap.map Extent.toSpan) s.table)
    (old : ∀ e ∈ s.heap, ok e.toSpan ∧ e.range.Apart extent.range) :
    ∃ table, s.insertExtent insert extent = some ⟨s.heap ++ [extent], table⟩ ∧
      Filled pieces ((s.heap ++ [extent]).map Extent.toSpan) table := by
  refine ⟨_, by rw [ExtentStore.insertExtent, cuts.insert _ _ _ good]; rfl, ?_⟩
  rw [List.map_append, List.map_singleton]
  have length : s.heap.length = (s.heap.map Extent.toSpan).length := (List.length_map _).symm
  rw [length]
  refine filled.concat fun span mem key starts starts' => ?_
  obtain ⟨e, there, rfl⟩ := List.mem_map.mp mem
  obtain ⟨goodOld, apart⟩ := old e there
  exact apart.not_has (starts.has (cuts.tiles _ goodOld)) (starts'.has (cuts.tiles _ good))

theorem insertAll (es : List Extent) (s : ExtentStore)
    (filled : Filled pieces (s.heap.map Extent.toSpan) s.table)
    (good : ∀ e ∈ s.heap ++ es, ok e.toSpan)
    (apart : (s.heap ++ es).Pairwise fun e e' => e.range.Apart e'.range) :
    ∃ table, s.insertAll (ExtentStore.insertExtent insert) es = some ⟨s.heap ++ es, table⟩ ∧
      Filled pieces ((s.heap ++ es).map Extent.toSpan) table := by
  induction es generalizing s with
  | nil =>
    rw [List.append_nil]
    exact ⟨s.table, rfl, filled⟩
  | cons extent es ih =>
    obtain ⟨table, step, filled'⟩ := cuts.insertExtent (good extent (by simp)) filled fun e mem =>
      ⟨good e (List.mem_append_left _ mem), (List.pairwise_append.mp apart).2.2 e mem
        extent List.mem_cons_self⟩
    rw [List.append_cons] at good apart ⊢
    obtain ⟨table', run, filled''⟩ := ih ⟨s.heap ++ [extent], table⟩ filled' good apart
    exact ⟨table', by rw [ExtentStore.insertAll, step]; exact run, filled''⟩

theorem exists_table (good : ∀ span ∈ spans, ok span)
    (apart : spans.Pairwise fun r s => r.range.Apart s.range) :
    ∃ table, Filled pieces spans table ∧ ∀ es : List Extent, es.map Extent.toSpan = spans →
      ExtentStore.empty.insertAll (ExtentStore.insertExtent insert) es = some ⟨es, table⟩ := by
  have run : ∀ es : List Extent, es.map Extent.toSpan = spans →
      ∃ table, ExtentStore.empty.insertAll (ExtentStore.insertExtent insert) es = some ⟨es, table⟩ ∧
        Filled pieces spans table := by
    rintro es rfl
    have apart := List.pairwise_map.mp apart
    exact cuts.insertAll es ExtentStore.empty filled_empty
      (fun e mem => good _ (List.mem_map_of_mem mem)) apart
  have back : (spans.map fun span => (⟨span, 0⟩ : Extent)).map Extent.toSpan = spans := by
    rw [List.map_map]
    exact List.map_id _
  obtain ⟨table, _, filled⟩ := run _ back
  refine ⟨table, filled, fun es eq => ?_⟩
  obtain ⟨table', ran, filled'⟩ := run es eq
  rw [ran, filled.eq filled']

omit cuts in
theorem page_parity (value : Value) (pages : BitVec 64) :
    (value + 4096 * pages).toNat % 2 = value.toNat % 2 := by
  have even : (4096 * pages).toNat = 4096 * pages.toNat % 2 ^ 64 := BitVec.toNat_mul ..
  rw [BitVec.toNat_add, even]
  omega

/-- The address of a key's page comes back for all values exactly when the lookup ends at the
key's own extent. -/
theorem answers_iff (good : ∀ span ∈ spans, ok span)
    (apart : spans.Pairwise fun r s => r.range.Apart s.range) {i : Nat} {span : Span}
    (here : spans[i]? = some span) :
    (∀ es : List Extent, es.map Extent.toSpan = spans →
      ∃ s, ExtentStore.empty.insertAll (ExtentStore.insertExtent insert) es = some s ∧
        ∀ e, es[i]? = some e → s.getExtent get key = some (e.value + 4096 * (key - e.key))) ↔
      ∀ table, Filled pieces spans table → get table key = some i := by
  obtain ⟨table, filled, run⟩ := cuts.exists_table good apart
  constructor
  · intro answers table' filled'
    rw [filled'.eq filled]
    -- only the extent asked for has an odd address
    let es := spans.mapIdx fun j span => (⟨span, if j = i then 1 else 0⟩ : Extent)
    have shape : es.map Extent.toSpan = spans := by
      refine List.ext_getElem? fun j => ?_
      rw [List.getElem?_map, List.getElem?_mapIdx, Option.map_map]
      exact Option.map_id'
    have extent : es[i]? = some ⟨span, 1⟩ := by
      rw [List.getElem?_mapIdx, here, Option.map_some, if_pos rfl]
    obtain ⟨s, ran, answer⟩ := answers es shape
    cases (run es shape).symm.trans ran
    have odd := answer _ extent
    unfold ExtentStore.getExtent at odd
    split at odd
    · have parity := congrArg (·.toNat % 2) (Option.some.inj odd)
      dsimp only at parity
      rw [page_parity] at parity
      exact absurd parity (by decide)
    · rename_i j found
      obtain ⟨e, there, eq⟩ := Option.map_eq_some_iff.mp odd
      obtain ⟨span', there', rfl⟩ :=
        Option.map_eq_some_iff.mp ((List.getElem?_mapIdx).symm.trans there)
      have parity := congrArg (·.toNat % 2) eq
      dsimp only at parity
      rw [page_parity, page_parity] at parity
      by_cases same : j = i
      · rw [found, same]
      · rw [if_neg same] at parity
        exact absurd parity (by decide)
  · intro finds es shape
    refine ⟨_, run es shape, fun e there => ?_⟩
    unfold ExtentStore.getExtent
    rw [finds table filled]
    dsimp only
    rw [there, Option.map_some]

/-- Nothing comes back for all values exactly when the lookup ends nowhere. -/
theorem misses_iff (good : ∀ span ∈ spans, ok span)
    (apart : spans.Pairwise fun r s => r.range.Apart s.range) :
    (∀ es : List Extent, es.map Extent.toSpan = spans →
      ∃ s, ExtentStore.empty.insertAll (ExtentStore.insertExtent insert) es = some s ∧
        s.getExtent get key = some noneValue) ↔ ∀ table, Filled pieces spans table →
          get table key = none := by
  obtain ⟨table, filled, run⟩ := cuts.exists_table good apart
  constructor
  · intro misses table' filled'
    rw [filled'.eq filled]
    obtain ⟨s, ran, miss⟩ :=
      misses (spans.map fun span => ⟨span, 1⟩) (by rw [List.map_map]; exact List.map_id _)
    cases (run _ (by rw [List.map_map]; exact List.map_id _)).symm.trans ran
    unfold ExtentStore.getExtent at miss
    split at miss
    · assumption
    · obtain ⟨e, there, eq⟩ := Option.map_eq_some_iff.mp miss
      rw [List.getElem?_map] at there
      obtain ⟨span, _, rfl⟩ := Option.map_eq_some_iff.mp there
      have parity := congrArg (·.toNat % 2) eq
      dsimp only at parity
      rw [page_parity] at parity
      exact absurd parity (by decide)
  · intro misses es shape
    refine ⟨_, run es shape, ?_⟩
    unfold ExtentStore.getExtent
    rw [misses table filled]

end Cuts

end

end Xcache
