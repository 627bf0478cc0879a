import Xcache.Extent.Store

/-! Extents in the hybrid store, `NUMA_KV` over `CCEH_hybrid.cpp`. `Insert_extent` cuts an extent
into aligned pieces, and `Get_extent` climbs from the key to its aligned ancestors. -/

namespace Xcache

namespace CCEHHybrid

/-- `EXTENT_MAX_HEIGHT`. -/
def extentMaxHeight : Nat := 30

/-- The loop that halves `cover_range` until it is within `len`. -/
def shrink (coverRange : BitVec 32) (len : BitVec 64) : BitVec 32 :=
  if len < coverRange.setWidth 64 then shrink (coverRange >>> 1) len else coverRange
termination_by coverRange.toNat
decreasing_by
  rename_i lt
  have pos := BitVec.lt_def.mp lt
  rw [BitVec.toNat_setWidth] at pos
  rw [BitVec.toNat_ushiftRight, Nat.shiftRight_one]
  omega

/-- The `cover_range` of a step. `ffs` sees the low half of `head`, and a shift by -1 is one by 63,
of which an `unsigned int` keeps nothing. -/
def coverRange (head len : BitVec 64) : BitVec 32 :=
  let cover : BitVec 32 := (shl (1 : BitVec 64) (ffs (head.setWidth 32) - 1)).setWidth 32
  shrink (if cover = 0 then (1#64 <<< extentMaxHeight).setWidth 32 else cover) len

theorem shrink_spec {coverRange : BitVec 32} {len : BitVec 64} {j : Nat}
    (pow : coverRange.toNat = 2 ^ j) (two : 2 ≤ len.toNat) :
    ∃ i ≤ j, (shrink coverRange len).toNat = 2 ^ i ∧ 2 ^ i ≤ len.toNat ∧ (1 ≤ j → 1 ≤ i) := by
  induction j generalizing coverRange with
  | zero =>
    have small : ¬ len < coverRange.setWidth 64 := by
      rw [BitVec.lt_def, BitVec.toNat_setWidth]
      omega
    refine ⟨0, le_rfl, ?_, by omega, id⟩
    rw [shrink, if_neg small, pow]
  | succ j ih =>
    rw [shrink]
    split
    · rename_i lt
      have half : (coverRange >>> 1).toNat = 2 ^ j := by
        rw [BitVec.toNat_ushiftRight, Nat.shiftRight_one, pow, Nat.pow_succ,
          Nat.mul_div_cancel _ (by decide)]
      have large : 2 < 2 ^ (j + 1) := by
        rw [BitVec.lt_def, BitVec.toNat_setWidth, pow] at lt
        have := Nat.mod_le (2 ^ (j + 1)) (2 ^ 64)
        omega
      have one : 1 ≤ j := by
        by_contra zero
        rw [show j = 0 by omega] at large
        exact absurd large (by decide)
      obtain ⟨i, le, eq, within, keep⟩ := ih half
      exact ⟨i, by omega, eq, within, fun _ => keep one⟩
    · rename_i within
      refine ⟨j + 1, le_rfl, pow, ?_, fun _ => Nat.le_add_left ..⟩
      rw [BitVec.lt_def, BitVec.toNat_setWidth, Nat.mod_eq_of_lt (by omega), pow] at within
      omega

/-- What the loop starts from: the lowest set bit of the low half of the head, or 2^30. -/
theorem cover_spec (head : BitVec 64) :
    let cover : BitVec 32 := (shl (1 : BitVec 64) (ffs (head.setWidth 32) - 1)).setWidth 32
    ∃ j < 32, (if cover = 0 then (1#64 <<< extentMaxHeight).setWidth 32 else cover).toNat = 2 ^ j ∧
      2 ^ j ∣ head.toNat ∧ (2 ∣ head.toNat → 1 ≤ j) := by
  intro cover
  have low : (head.setWidth 32).toNat = head.toNat % 2 ^ 32 := BitVec.toNat_setWidth ..
  have value : cover.toNat = 2 ^ ((((ffs (head.setWidth 32) : Nat) : Int) - 1) % 64).toNat % 2 ^
      32 := by
    rw [BitVec.toNat_setWidth, toNat_one_shl (by decide)]
    rfl
  by_cases zero : head.setWidth 32 = 0
  · have none : cover = 0 := by
      rw [ffs, if_pos zero] at value
      exact BitVec.eq_of_toNat_eq value
    rw [if_pos none]
    rw [zero] at low
    refine ⟨30, by decide, by decide, ?_, fun _ => by decide⟩
    exact (Nat.pow_dvd_pow 2 (by decide : 30 ≤ 32)).trans (Nat.dvd_of_mod_eq_zero low.symm)
  · have lt := ctz_lt zero
    have bit : cover.toNat = 2 ^ (head.setWidth 32).ctz.toNat := by
      rw [value, ffs, if_neg zero, Nat.cast_succ, Int.add_sub_cancel,
        show (((head.setWidth 32).ctz.toNat : Int) % 64).toNat =
          (head.setWidth 32).ctz.toNat by omega]
      exact Nat.mod_eq_of_lt (Nat.pow_lt_pow_right (by decide) lt)
    have some : cover ≠ 0 := by
      intro eq
      rw [eq] at bit
      exact (Nat.two_pow_pos _).ne bit
    have dvd := two_pow_ctz_dvd (head.setWidth 32)
    rw [low, Nat.dvd_mod_iff (Nat.pow_dvd_pow 2 lt.le)] at dvd
    rw [if_neg some]
    refine ⟨_, lt, bit, dvd, fun even => Nat.pos_of_ne_zero fun first => ?_⟩
    have set := BitVec.getLsbD_true_ctz_of_ne_zero zero
    rw [first, BitVec.getLsbD, low, Nat.testBit_zero, decide_eq_true_iff] at set
    omega

/-- The size of a step is a power of two that divides the head and is within the length, and
only an odd head makes it 1. -/
theorem coverRange_spec (head : BitVec 64) {len : BitVec 64} (two : 2 ≤ len.toNat) :
    ∃ j < 32, (coverRange head len).toNat = 2 ^ j ∧ 2 ^ j ∣ head.toNat ∧ 2 ^ j ≤ len.toNat ∧
      (2 ∣ head.toNat → 1 ≤ j) := by
  obtain ⟨j, lt, pow, dvd, even⟩ := cover_spec head
  obtain ⟨i, le, eq, within, keep⟩ := shrink_spec pow two
  exact ⟨i, le.trans_lt lt, eq, (Nat.pow_dvd_pow 2 le).trans dvd, within,
    fun two => keep (even two)⟩

theorem two_le {len : BitVec 64} (zero : ¬ len = 0) (one : ¬ len = 1) : 2 ≤ len.toNat := by
  have : len.toNat ≠ 0 := fun eq => zero (BitVec.eq_of_toNat_eq eq)
  have : len.toNat ≠ 1 := fun eq => one (BitVec.eq_of_toNat_eq eq)
  omega

theorem toNat_rest (head : BitVec 64) {len : BitVec 64} (two : 2 ≤ len.toNat) :
    ((coverRange head len).setWidth 64).toNat = (coverRange head len).toNat ∧
      0 < (coverRange head len).toNat ∧
      len.toNat = (coverRange head len).toNat +
        (len - (coverRange head len).setWidth 64).toNat := by
  obtain ⟨j, _, eq, _, within, _⟩ := coverRange_spec head two
  have wide : ((coverRange head len).setWidth 64).toNat = (coverRange head len).toNat := by
    rw [BitVec.toNat_setWidth]
    omega
  refine ⟨wide, by rw [eq]; exact Nat.two_pow_pos _, ?_⟩
  rw [BitVec.toNat_sub_of_le (BitVec.le_def.mpr (by rw [wide, eq]; exact within)), wide]
  omega

def insertExtent {P : Type} (table : Key → Option P) (key : Key) (value : P)
    (len : BitVec 64) : Key → Option P :=
  if _zero : len = 0 then table
  else if _one : len = 1 then Function.update table key (some value)
  else
    let cover := (coverRange key len).setWidth 64
    insertExtent (Function.update table key (some value)) (key + cover) value (len - cover)
termination_by len.toNat
decreasing_by
  have := toNat_rest key (two_le _zero _one)
  omega

/-- The loop of `Get_extent` over the heights that are left. -/
def climb {P : Type} (table : Key → Option P) (key : Key) : List Nat → BitVec 32 → Option P
  | [], _ => none
  | h :: hs, prev =>
    let target := key - key % (1#64 <<< h)
    if target = prev.setWidth 64 then climb table key hs prev
    else
      match table target with
      | some value => some value
      | none => climb table key hs (target.setWidth 32)

def getExtent {P : Type} (table : Key → Option P) (key : Key) : Option P :=
  climb table key (List.range' 0 extentMaxHeight) (-1)

def pieces (key : Key) (len : BitVec 64) : List Range :=
  if _zero : len = 0 then []
  else if _one : len = 1 then [⟨key.toNat, 1⟩]
  else
    let cover := coverRange key len
    ⟨key.toNat, cover.toNat⟩ :: pieces (key + cover.setWidth 64) (len - cover.setWidth 64)
termination_by len.toNat
decreasing_by
  have := toNat_rest key (two_le _zero _one)
  omega

end CCEHHybrid

namespace NumaKV

def insertExtent : ExtentStore → Extent → Option ExtentStore :=
  ExtentStore.insertExtent fun table span ptr =>
    some (CCEHHybrid.insertExtent table span.key ptr span.len)

def getExtent : ExtentStore → Key → Option Value := ExtentStore.getExtent CCEHHybrid.getExtent

end NumaKV

namespace CCEHHybrid

theorem pieces_zero (key : Key) : pieces key 0#64 = [] := by
  rw [pieces, BitVec.ofNat_eq_ofNat, dif_pos rfl]

theorem insertExtent_zero {P : Type} (table : Key → Option P) (key : Key) (value : P) :
    insertExtent table key value 0#64 = table := by
  rw [insertExtent, BitVec.ofNat_eq_ofNat, dif_pos rfl]

/-- The first piece: aligned, and of size 1 only at an odd key or as the last one. -/
theorem pieces_cons (key : Key) {len : BitVec 64} (pos : 0 < len.toNat) :
    ∃ (size : BitVec 64) (j : Nat), 0 < size.toNat ∧ size.toNat ≤ len.toNat ∧ size.toNat = 2 ^ j ∧
      j < 32 ∧ 2 ^ j ∣ key.toNat ∧
      (2 ∣ key.toNat → len = size ∨ 2 ∣ size.toNat) ∧
      pieces key len = ⟨key.toNat, size.toNat⟩ :: pieces (key + size) (len - size) ∧
      ∀ {P : Type} (table : Key → Option P) (value : P), insertExtent table key value len =
        insertExtent (Function.update table key (some value)) (key + size) value (len - size) := by
  have some : ¬ len = 0 := by
    rintro rfl
    exact pos.ne rfl
  by_cases one : len = 1
  · subst one
    refine ⟨1, 0, by decide, le_rfl, by decide, by decide, one_dvd _, fun _ => Or.inl rfl, ?_,
      fun table value => ?_⟩
    · rw [pieces, dif_neg some, dif_pos rfl, BitVec.sub_self, pieces_zero]
      rfl
    · rw [insertExtent, dif_neg some, dif_pos rfl, BitVec.sub_self, insertExtent_zero]
  · have two := two_le some one
    obtain ⟨j, lt, eq, dvd, within, even⟩ := coverRange_spec key two
    obtain ⟨wide, pos, _⟩ := toNat_rest key two
    refine ⟨(coverRange key len).setWidth 64, j, by rwa [wide], by rwa [wide, eq], wide.trans eq,
      lt, dvd, fun divides => Or.inr ?_, ?_, fun table value => ?_⟩
    · rw [wide, eq]
      exact dvd_pow_self 2 (Nat.pos_iff_ne_zero.mp (even divides))
    · rw [pieces, dif_neg some, dif_neg one, wide]
    · rw [insertExtent, dif_neg some, dif_neg one]

theorem tiles_pieces (key len : BitVec 64) (proper : key.toNat + len.toNat ≤ 2 ^ 64) :
    Range.Tiles (pieces key len) ⟨key.toNat, len.toNat⟩ := by
  induction key, len using span_induct with
  | nil key =>
    rw [pieces_zero]
    exact .nil _
  | cons key len pos ih =>
    obtain ⟨size, j, lower, upper, _, _, _, _, eq, _⟩ := pieces_cons key pos
    rw [eq]
    refine tiles_cons lower upper proper (fun last => ?_) fun more => ih size lower upper more
    rw [last, pieces_zero]

theorem aligned_piece {key len : BitVec 64} {p : Range} (mem : p ∈ pieces key len) :
    ∃ j < 32, p.size = 2 ^ j ∧ 2 ^ j ∣ p.start := by
  induction key, len using span_induct with
  | nil key =>
    rw [pieces_zero] at mem
    cases mem
  | cons key len pos ih =>
    obtain ⟨size, j, lower, upper, pow, lt, dvd, _, eq, _⟩ := pieces_cons key pos
    rw [eq] at mem
    rcases List.mem_cons.mp mem with rfl | later
    · exact ⟨j, lt, pow, dvd⟩
    · exact ih size lower upper later

theorem start_of_odd {key len : BitVec 64} {p : Range} (mem : p ∈ pieces key len)
    (odd : ¬ 2 ∣ p.start) :
    p.start = key.toNat := by
  induction key, len using span_induct with
  | nil key =>
    rw [pieces_zero] at mem
    cases mem
  | cons key len pos ih =>
    obtain ⟨size, j, lower, upper, pow, _, dvd, even, eq, _⟩ := pieces_cons key pos
    rw [eq] at mem
    rcases List.mem_cons.mp mem with rfl | later
    · rfl
    · -- the next piece begins at an even key, if there is one
      rw [ih size lower upper later, BitVec.toNat_add] at odd
      have oddSum : ¬ 2 ∣ key.toNat + size.toNat := by omega
      by_cases two : 2 ∣ key.toNat
      · rcases even two with rfl | sizeEven
        · rw [BitVec.sub_self, pieces_zero] at later
          cases later
        · exact absurd (Nat.dvd_add two sizeEven) oddSum
      · have one : j = 0 := by
          by_contra more
          exact two ((dvd_pow_self 2 more).trans dvd)
        rw [pow, one] at oddSum
        omega

theorem insertExtent_eq {P : Type} (table : Key → Option P) (value : P) (key len : BitVec 64) :
    insertExtent table key value len = writeStarts table (pieces key len) value := by
  induction key, len using span_induct generalizing table with
  | nil key => rw [pieces_zero, insertExtent_zero, writeStarts_nil]
  | cons key len pos ih =>
    obtain ⟨size, j, lower, upper, _, _, _, _, eq, step⟩ := pieces_cons key pos
    rw [eq, step, writeStarts_cons]
    exact ih size lower upper _

def spanPieces (span : Span) : List Range := pieces span.key span.len

theorem cuts : Cuts (fun table span ptr => some (insertExtent table span.key ptr span.len))
      Span.Proper spanPieces where
  tiles span proper := tiles_pieces span.key span.len proper.2
  insert table span ptr _ := congrArg some (insertExtent_eq table ptr span.key span.len)

def ancestor (key : Key) (h : Nat) : Key := key - key % (1#64 <<< h)

theorem toNat_ancestor (key : Key) {h : Nat} (lt : h < 64) :
    (ancestor key h).toNat = alignDown h key.toNat := by
  have pow : (1#64 <<< h).toNat = 2 ^ h := by
    rw [BitVec.toNat_shiftLeft, BitVec.toNat_ofNat, Nat.shiftLeft_eq]
    simpa using Nat.pow_lt_pow_right (by decide) lt
  have rest : (key % (1#64 <<< h)).toNat = key.toNat % 2 ^ h := by rw [BitVec.toNat_umod, pow]
  unfold ancestor alignDown
  rw [BitVec.toNat_sub_of_le (BitVec.le_def.mpr (by rw [rest]; exact Nat.mod_le _ _)), rest]

/-- The heights at which `Get_extent` looks: it takes the first ancestor of 2^32 - 1, which is the
key itself, for one that it has seen. -/
def heights (key : Key) : List Nat :=
  if key.toNat = 2 ^ 32 - 1 then List.range' 1 29 else List.range' 0 30

theorem ancestor_eq_of_low (key : Key) {h : Nat} (lt : h + 1 < 32)
    (same : ancestor key (h + 1) = ((ancestor key h).setWidth 32).setWidth 64) :
    ancestor key (h + 1) = ancestor key h := by
  have below := congrArg BitVec.toNat same
  rw [BitVec.toNat_setWidth, BitVec.toNat_setWidth] at below
  refine BitVec.eq_of_toNat_eq ?_
  rw [toNat_ancestor key (by omega), toNat_ancestor key (by omega)] at *
  by_cases small : alignDown h key.toNat < 2 ^ 32
  · rw [Nat.mod_eq_of_lt small] at below
    omega
  · have large := (Nat.le_of_not_lt small).trans (alignDown_le h key.toNat)
    have := le_alignDown (Nat.pow_dvd_pow 2 lt.le) large
    omega

/-- Once one ancestor has been seen, only ancestors that are not stored are passed over. -/
theorem climb_eq {P : Type} (table : Key → Option P) (key : Key) {n h : Nat} (low : h + n < 32)
    (missed : table (ancestor key h) = none ∨ ancestor key (h + 1) ≠ ancestor key h) :
    climb table key (List.range' (h + 1) n) ((ancestor key h).setWidth 32) =
      (List.range' (h + 1) n).findSome? fun h => table (ancestor key h) := by
  induction n generalizing h with
  | zero => rfl
  | succ n ih =>
    rw [List.range'_succ, climb, List.findSome?_cons]
    change (if ancestor key (h + 1) = _ then _ else _) = _
    split
    · rename_i same
      have eq := ancestor_eq_of_low key (by omega) same
      have none := missed.resolve_right fun ne => ne eq
      rw [← eq] at none
      rw [none, ← eq]
      exact ih (by omega) (Or.inl none)
    · change (match table (ancestor key (h + 1)) with | some value => _ | none => _) = _
      cases stored : table (ancestor key (h + 1)) with
      | some value => rfl
      | none => exact ih (by omega) (Or.inl stored)

theorem ancestor_zero (key : Key) : ancestor key 0 = key := by
  refine BitVec.eq_of_toNat_eq ?_
  rw [toNat_ancestor key (by decide), alignDown_zero]

theorem getExtent_eq {P : Type} (table : Key → Option P) (key : Key) :
    getExtent table key = (heights key).findSome? fun h => table (ancestor key h) := by
  have all : List.range' 0 30 = 0 :: List.range' 1 29 := rfl
  rw [getExtent, extentMaxHeight, all, climb]
  change (if ancestor key 0 = _ then _ else _) = _
  rw [ancestor_zero, heights]
  have last : key = (-1 : BitVec 32).setWidth 64 ↔ key.toNat = 2 ^ 32 - 1 :=
    ⟨fun eq => by rw [eq]; rfl, fun eq => BitVec.eq_of_toNat_eq eq⟩
  by_cases max : key.toNat = 2 ^ 32 - 1
  · have eq := last.mpr max
    rw [if_pos eq, if_pos max]
    have prev : (-1 : BitVec 32) = (ancestor key 0).setWidth 32 := by
      rw [ancestor_zero, eq]
      rfl
    rw [prev]
    refine climb_eq table key (by decide) (Or.inr ?_)
    rw [eq]
    decide
  · rw [if_neg (mt last.mp max), if_neg max, all, List.findSome?_cons, ancestor_zero]
    change (match table (ancestor key 0) with | some value => _ | none => _) = _
    rw [ancestor_zero]
    cases stored : table key with
    | some value => rfl
    | none => exact climb_eq table key (by decide) (Or.inl (by rwa [ancestor_zero]))

theorem heights_sorted (key : Key) : (heights key).Pairwise (· < ·) := by
  unfold heights
  split <;> exact List.pairwise_lt_range'

theorem mem_heights {key : Key} {h : Nat} :
    h ∈ heights key ↔ h < 30 ∧ (h = 0 → key.toNat ≠ 2 ^ 32 - 1) := by
  unfold heights
  split <;> rw [List.mem_range'_1] <;> omega

/-- The first entry of a sorted list that counts, when an entry with the value has nothing else
before it. -/
theorem findSome?_eq_of_sorted {P : Type} {f : Nat → Option P} {l : List Nat} {h : Nat} {value : P}
    (sorted : l.Pairwise (· < ·)) (mem : h ∈ l) (found : f h = some value)
    (before : ∀ x ∈ l, x ≤ h → ∀ other, f x = some other → other = value) :
    l.findSome? f = some value := by
  induction l with
  | nil => cases mem
  | cons x l ih =>
    obtain ⟨first, rest⟩ := List.pairwise_cons.mp sorted
    rw [List.findSome?_cons]
    have le : x ≤ h := by
      rcases List.mem_cons.mp mem with rfl | later
      · exact le_rfl
      · exact (first h later).le
    cases here : f x with
    | some other => rw [before x List.mem_cons_self le other here]
    | none =>
      have later : h ∈ l := (List.mem_cons.mp mem).resolve_left fun eq => by
        rw [← eq, found] at here
        cases here
      exact ih rest later fun y there => before y (List.mem_cons_of_mem _ there)

section
variable {spans : List Span} {table : PtrMap} {span : Span} {key : Key} {i : Nat} {p : Range}

theorem stored_iff (filled : Filled spanPieces spans table) {h : Nat} (lt : h < 30) :
    table (ancestor key h) = some i ↔
      ∃ span, spans[i]? = some span ∧ ∃ p ∈ spanPieces span, p.start = alignDown h key.toNat := by
  rw [filled]
  unfold Starts
  rw [toNat_ancestor key (by omega)]

/-- Inside a piece nothing is stored but its own pointer at its start. -/
theorem stored_in_piece (proper : ∀ span ∈ spans, span.Proper)
    (apart : spans.Pairwise fun r s => r.range.Apart s.range)
    (filled : Filled spanPieces spans table) (here : spans[i]? = some span)
    (mem : p ∈ spanPieces span) {h j : Nat} (lt : h < 30) (has : p.Has (alignDown h key.toNat))
    (stored : table (ancestor key h) = some j) :
    j = i ∧ p.start = alignDown h key.toNat := by
  obtain ⟨span', there, q, memQ, start⟩ := (stored_iff filled lt).mp stored
  have tiles := cuts.tiles span (proper span (List.mem_of_getElem? here))
  have tiles' := cuts.tiles span' (proper span' (List.mem_of_getElem? there))
  have hasQ := tiles'.has_start memQ
  rw [start] at hasQ
  have same : j = i := by
    by_contra ne
    obtain ⟨ltI, rfl⟩ := List.getElem?_eq_some_iff.mp here
    obtain ⟨ltJ, rfl⟩ := List.getElem?_eq_some_iff.mp there
    have inI := has.of_inside (tiles.inside mem)
    have inJ := hasQ.of_inside (tiles'.inside memQ)
    rcases Nat.lt_or_gt_of_ne ne with less | more
    · exact (List.pairwise_iff_getElem.mp apart j i ltJ ltI less).not_has inJ inI
    · exact (List.pairwise_iff_getElem.mp apart i j ltI ltJ more).not_has inI inJ
  subst same
  cases here.symm.trans there
  rw [tiles.eq_of_has mem memQ has hasQ]
  exact ⟨rfl, start⟩

theorem has_alignDown (has : p.Has key.toNat) {h j : Nat} (dvd : 2 ^ j ∣ p.start) (le : h ≤ j) :
    p.Has (alignDown h key.toNat) :=
  ⟨le_alignDown ((Nat.pow_dvd_pow 2 le).trans dvd) has.1, (alignDown_le h key.toNat).trans_lt has.2⟩

/-- The keys that the climb leads to the start of their piece: less than 2^29 behind it, and not
2^32 - 1 as the first key of the extent. -/
def Reached (span : Span) (key : Key) : Prop :=
  (∃ p ∈ spanPieces span, p.Has key.toNat ∧ key.toNat < p.start + 2 ^ 29) ∧
    ¬ (key.toNat = 2 ^ 32 - 1 ∧ span.key.toNat = 2 ^ 32 - 1)

theorem getExtent_of_reached (proper : ∀ span ∈ spans, span.Proper)
    (apart : spans.Pairwise fun r s => r.range.Apart s.range)
    (filled : Filled spanPieces spans table) (here : spans[i]? = some span)
    (reached : Reached span key) :
    getExtent table key = some i := by
  obtain ⟨⟨p, mem, has, near⟩, inner⟩ := reached
  obtain ⟨j, _, size, dvd⟩ := aligned_piece mem
  have low : 2 ^ min j 29 ∣ p.start := (Nat.pow_dvd_pow 2 (Nat.min_le_left ..)).trans dvd
  have top : alignDown (min j 29) key.toNat = p.start := by
    refine alignDown_eq_iff.mpr ⟨low, has.1, ?_⟩
    dsimp only
    rcases Nat.le_total j 29 with le | ge
    · rw [Nat.min_eq_left le, ← size]
      exact has.2
    · rw [Nat.min_eq_right ge]
      exact near
  have looked : min j 29 ∈ heights key := by
    refine mem_heights.mpr ⟨by omega, fun zero max => ?_⟩
    rw [zero, alignDown_zero] at top
    refine inner ⟨max, ?_⟩
    rw [← start_of_odd mem (by omega), ← top, max]
  rw [getExtent_eq]
  refine findSome?_eq_of_sorted (heights_sorted key) looked
    ((stored_iff filled (by omega)).mpr ⟨span, here, p, mem, top.symm⟩)
      fun h memH le other stored => ?_
  exact (stored_in_piece proper apart filled here mem (mem_heights.mp memH).1
    (has_alignDown has low le) stored).1

theorem reached_of_getExtent (proper : ∀ span ∈ spans, span.Proper)
    (apart : spans.Pairwise fun r s => r.range.Apart s.range)
    (filled : Filled spanPieces spans table) (here : spans[i]? = some span)
    (inside : span.range.Has key.toNat)
    (found : getExtent table key = some i) : Reached span key := by
  rw [getExtent_eq] at found
  obtain ⟨h, memH, stored⟩ := List.exists_of_findSome?_eq_some found
  obtain ⟨lt, seen⟩ := mem_heights.mp memH
  have tiles := cuts.tiles span (proper span (List.mem_of_getElem? here))
  constructor
  · obtain ⟨p, mem, has⟩ := tiles.exists_has inside
    obtain ⟨j, _, size, dvd⟩ := aligned_piece mem
    refine ⟨p, mem, has, ?_⟩
    rcases Nat.le_total j 29 with small | large
    · have := Nat.pow_le_pow_right (n := 2) (by decide) small
      have := has.2
      omega
    · -- the heights end inside the piece
      have own := stored_in_piece proper apart filled here mem lt (has_alignDown has dvd (by omega))
        stored
      have := lt_alignDown_add h key.toNat
      have := Nat.pow_le_pow_right (n := 2) (by decide) (show h ≤ 29 by omega)
      omega
  · rintro ⟨max, first⟩
    obtain ⟨span', there, q, memQ, start⟩ := (stored_iff filled lt).mp stored
    cases here.symm.trans there
    have lower : 2 ^ 32 - 1 ≤ alignDown h key.toNat := by
      have := (tiles.inside memQ).1
      rw [start] at this
      exact first.symm.le.trans this
    -- no height but the one that is passed over ends at an odd key
    have self : alignDown h key.toNat = 2 ^ 32 - 1 := by
      have := alignDown_le h key.toNat
      omega
    have dvd := dvd_alignDown h key.toNat
    rw [self] at dvd
    have even := (dvd_pow_self 2 (fun zero => seen zero max)).trans dvd
    exact absurd even (by decide)

end

end CCEHHybrid

namespace NumaKV
open CCEHHybrid (spanPieces Reached)

/-- In a store of disjoint extents, a key of an extent gets its address for all values exactly when
the climb reaches the start of its piece. -/
theorem getExtent_iff_reached (spans : List Span) (proper : ∀ span ∈ spans, span.Proper)
    (apart : spans.Pairwise fun r s => r.range.Apart s.range) {i : Nat} {span : Span}
    (here : spans[i]? = some span) {key : Key} (inside : span.range.Has key.toNat) :
    (∀ es : List Extent, es.map Extent.toSpan = spans →
        ∃ s, ExtentStore.insertAll insertExtent ExtentStore.empty es = some s ∧
          ∀ e, es[i]? = some e → getExtent s key = some (e.value + 4096 * (key - e.key))) ↔
            Reached span key := by
  refine (CCEHHybrid.cuts.answers_iff proper apart here).trans ⟨fun found => ?_,
    fun reached table filled => ?_⟩
  · obtain ⟨table, filled, _⟩ := CCEHHybrid.cuts.exists_table proper apart
    exact CCEHHybrid.reached_of_getExtent proper apart filled here inside (found table filled)
  · exact CCEHHybrid.getExtent_of_reached proper apart filled here reached

theorem getExtent_iff_reached_interior : ∃ s,
    ExtentStore.insertAll insertExtent ExtentStore.empty [⟨⟨4, 4⟩, 8192⟩] = some s ∧
      getExtent s 5 = some (8192 + 4096 * (5 - 4)) := by
  have reached : Reached ⟨4, 4⟩ 5 := by
    have tiles := CCEHHybrid.cuts.tiles ⟨4, 4⟩ (by decide)
    obtain ⟨p, mem, has⟩ := tiles.exists_has (k := 5) (by decide)
    exact ⟨⟨p, mem, has, (show 5 < 2 ^ 29 by decide).trans_le (Nat.le_add_left ..)⟩, by decide⟩
  obtain ⟨s, run, answer⟩ :=
    (getExtent_iff_reached [⟨4, 4⟩] (by decide) (List.pairwise_singleton _ _)
    (show [Span.mk 4 4][0]? = some ⟨4, 4⟩ from rfl) (by decide)).mpr reached [⟨⟨4, 4⟩, 8192⟩] rfl
  exact ⟨s, run, answer _ rfl⟩

/-- The extent of the one key 2^32 - 1 is passed over. -/
theorem last_word_key_not_found : ∃ s,
    ExtentStore.insertAll insertExtent ExtentStore.empty [⟨⟨4294967295, 1⟩, 8192⟩] = some s ∧
      getExtent s 4294967295 = some noneValue ∧
        getExtent s 4294967295 ≠ some (8192 + 4096 * (4294967295 - 4294967295)) := by
  refine ⟨⟨[⟨⟨4294967295, 1⟩, 8192⟩], Function.update (fun _ => none) 4294967295 (some 0)⟩,
    ?_, by decide +kernel, by decide +kernel⟩
  rw [ExtentStore.insertAll, insertExtent, ExtentStore.insertExtent, CCEHHybrid.insertExtent,
    dif_neg (by decide), dif_pos rfl]
  rfl

/-- In a store of disjoint extents, a key of no extent gets `NONE` for all values exactly when it is
in no aligned block of up to 2^29 keys that begins where a piece begins. -/
theorem getExtent_none_iff (spans : List Span) (proper : ∀ span ∈ spans, span.Proper)
    (apart : spans.Pairwise fun r s => r.range.Apart s.range) {key : Key}
    (outside : ∀ span ∈ spans, ¬ span.range.Has key.toNat) :
    (∀ es : List Extent, es.map Extent.toSpan = spans →
        ∃ s, ExtentStore.insertAll insertExtent ExtentStore.empty es = some s ∧
          getExtent s key = some noneValue) ↔
      ∀ span ∈ spans, ∀ p ∈ spanPieces span, ∀ h < 30, 2 ^ h ∣ p.start →
        ¬ (Range.mk p.start (2 ^ h)).Has key.toNat := by
  refine (CCEHHybrid.cuts.misses_iff proper apart).trans
    ⟨fun missed span mem p memP h lt dvd has => ?_, fun clear table filled => ?_⟩
  · obtain ⟨table, filled, _⟩ := CCEHHybrid.cuts.exists_table proper apart
    have missed := missed table filled
    obtain ⟨i, here⟩ := List.getElem?_of_mem mem
    have top := alignDown_eq_iff.mpr ⟨dvd, has⟩
    have looked : h ∈ CCEHHybrid.heights key := by
      refine CCEHHybrid.mem_heights.mpr ⟨lt, fun zero _ => ?_⟩
      rw [zero, alignDown_zero] at top
      have tiles := CCEHHybrid.cuts.tiles span (proper span mem)
      have start := (tiles.has_start memP).of_inside (tiles.inside memP)
      rw [← top] at start
      exact outside span mem start
    rw [CCEHHybrid.getExtent_eq, List.findSome?_eq_none_iff] at missed
    have stored := (CCEHHybrid.stored_iff filled lt).mpr ⟨span, here, p, memP, top.symm⟩
    rw [missed h looked] at stored
    cases stored
  · rw [CCEHHybrid.getExtent_eq, List.findSome?_eq_none_iff]
    intro h memH
    have lt := (CCEHHybrid.mem_heights.mp memH).1
    by_contra some
    obtain ⟨i, stored⟩ := Option.ne_none_iff_exists'.mp some
    obtain ⟨span, here, p, memP, start⟩ := (CCEHHybrid.stored_iff filled lt).mp stored
    obtain ⟨dvd, has⟩ := alignDown_eq_iff.mp start.symm
    exact clear span (List.mem_of_getElem? here) p memP h lt dvd has

theorem getExtent_none_iff_behind : ∃ s,
    ExtentStore.insertAll insertExtent ExtentStore.empty [⟨⟨4, 1⟩, 8192⟩] = some s ∧
      getExtent s 9 = some noneValue := by
  have clear : ∀ span ∈ [Span.mk 4 1], ∀ p ∈ spanPieces span, ∀ h < 30, 2 ^ h ∣ p.start →
      ¬ (Range.mk p.start (2 ^ h)).Has (9 : Key).toNat := by
    intro span mem p memP h _ dvd has
    rw [List.mem_singleton.mp mem] at memP
    have tiles := CCEHHybrid.cuts.tiles ⟨4, 1⟩ (by decide)
    have start : (Span.mk 4 1).range.Has p.start :=
      (tiles.has_start memP).of_inside (tiles.inside memP)
    have four : p.start = 4 := Nat.le_antisymm (Nat.lt_succ_iff.mp start.2) start.1
    rw [four] at dvd has
    have : 2 ^ h ≤ 4 := Nat.le_of_dvd (by decide) dvd
    have far : 9 < 4 + 2 ^ h := has.2
    omega
  exact (getExtent_none_iff [⟨4, 1⟩] (by decide) (List.pairwise_singleton _ _) (by decide)).mpr
    clear [⟨⟨4, 1⟩, 8192⟩] rfl

/-- Key 5 gets the address behind the one page of the extent of key 4. -/
theorem uncovered_key_found : (∀ span ∈ [Span.mk 4 1], ¬ span.range.Has (5 : Key).toNat) ∧ ∃ s,
    ExtentStore.insertAll insertExtent ExtentStore.empty [⟨⟨4, 1⟩, 8192⟩] = some s ∧
      getExtent s 5 = some 12288 := by
  refine ⟨by decide, ⟨[⟨⟨4, 1⟩, 8192⟩], Function.update (fun _ => none) 4 (some 0)⟩,
    ?_, by decide +kernel⟩
  rw [ExtentStore.insertAll, insertExtent, ExtentStore.insertExtent, CCEHHybrid.insertExtent,
    dif_neg (by decide), dif_pos rfl]
  rfl

end NumaKV

end Xcache
