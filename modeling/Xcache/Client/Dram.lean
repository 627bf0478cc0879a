import Xcache.Client.Longkey
import Xcache.Lib.Memory
import Xcache.Lib.Runs
import Xcache.Remote.Layout

/-! The cleancache over local memory of `client/dram-backend/pmdfc.c`: pages are copied one behind
the other into a buffer, and a hash table of chains remembers where. -/

namespace Xcache.Dram

open Memory Remote

def bits : Nat := 21
def numPages : Nat := 2 ^ bits
def remoteBufSize : Nat := pageSize * numPages

abbrev Page := Fin pageSize → Byte

structure HtData where
  longkey : BitVec 64
  roffset : Nat

structure Backend where
  hashHead : Nat → List HtData
  mrFreeStart : Nat
  dramBuf : Nat → Byte

def start : Backend := ⟨fun _ => [], 0, fun _ => 0⟩

/-- What `atomic_long_fetch_add_unless` leaves behind; it returns the old value. -/
def fetchAddUnless (v a u : Nat) : Nat := if v = u then v else v + a

/-- The scan does not stop at a match, so the last one counts. -/
def lookup (chain : List HtData) (longkey : BitVec 64) : Option Nat :=
  chain.foldl (fun found cur => if cur.longkey = longkey then some cur.roffset else found) none

section
variable (hashMin : BitVec 64 → Nat)

/-- `none` when the copy leaves the buffer: the full buffer is only reported. -/
def putPage (s : Backend) (poolId : Int) (inode index : BitVec 64) (page : Page) : Option Backend :=
  if poolId < 0 then some s
  else
    let longkey := getLongkey inode index
    let roffset := s.mrFreeStart
    let bucket := hashMin longkey
    if roffset + pageSize ≤ remoteBufSize then
      some
        { hashHead := Function.update s.hashHead bucket (⟨longkey, roffset⟩ :: s.hashHead bucket)
          mrFreeStart := fetchAddUnless s.mrFreeStart pageSize remoteBufSize
          dramBuf := write s.dramBuf roffset page }
    else none

/-- The page of a call that returns 0, or `some none` for one that returns -1. -/
def getPage (s : Backend) (inode index : BitVec 64) : Option (Option Page) :=
  let longkey := getLongkey inode index
  match lookup (s.hashHead (hashMin longkey)) longkey with
  | none => some none
  | some roffset =>
    if roffset + pageSize ≤ remoteBufSize then some (some (read pageSize s.dramBuf roffset))
      else none

/-- The calls of the file system: pools are numbered from 0, inode and index have 32 bits. -/
inductive Call
  | put (poolId : Nat) (inode index : BitVec 32) (page : Page)
  | get (inode index : BitVec 32)

def key (inode index : BitVec 32) : BitVec 64 := getLongkey (inode.setWidth 64) (index.setWidth 64)

def step (s : Backend) : Call → Option Backend
  | .put poolId inode index page =>
    putPage hashMin s poolId (inode.setWidth 64) (index.setWidth 64) page
  | .get inode index => (getPage hashMin s (inode.setWidth 64) (index.setWidth 64)).map fun _ => s

def answer (s : Backend) : Call → Option Page
  | .put .. => none
  | .get inode index => (getPage hashMin s (inode.setWidth 64) (index.setWidth 64)).join

end

def Call.pageOf (inode index : BitVec 32) : Call → Option Page
  | .put _ inode' index' page => if inode' = inode ∧ index' = index then some page else none
  | .get .. => none

def firstPut (inode index : BitVec 32) (calls : List Call) : Option Page :=
  calls.findSome? (Call.pageOf inode index)

def lastPut (inode index : BitVec 32) (calls : List Call) : Option Page :=
  calls.reverse.findSome? (Call.pageOf inode index)

/-- Every copy of the calls stays in the buffer, and what a get delivers is the most recent put. -/
def Fresh (hashMin : BitVec 64 → Nat) (calls : List Call) : Prop :=
  ∀ done call, done ++ [call] <+: calls → ∃ s t, Runs.run (step hashMin) start done = some s ∧
    step hashMin s call = some t ∧ ∀ inode index page, call = .get inode index →
      answer hashMin s call = some page → lastPut inode index done = some page

def Call.entry : Call → Option (BitVec 64 × Page)
  | .put _ inode index page => some (key inode index, page)
  | .get .. => none

def puts (calls : List Call) : List (BitVec 64 × Page) := calls.filterMap Call.entry

def entries (ledger : List (BitVec 64 × Page)) : List HtData :=
  ledger.zipIdx.map fun put => ⟨put.1.1, pageSize * put.2⟩

theorem toNat_widen (x : BitVec 32) : (x.setWidth 64).toNat = x.toNat :=
  BitVec.toNat_setWidth_of_le (by decide)

theorem key_injective {inode inode' index index' : BitVec 32}
    (eq : key inode index = key inode' index') :
    inode = inode' ∧ index = index' := by
  have small : ∀ x : BitVec 32, (x.setWidth 64).toNat < 2 ^ 32 :=
    fun x => (toNat_widen x).trans_lt x.isLt
  have narrow : ∀ {x y : BitVec 32}, x.setWidth 64 = y.setWidth 64 → x = y := fun {x y} same =>
    BitVec.eq_of_toNat_eq (by rw [← toNat_widen x, ← toNat_widen y, same])
  obtain ⟨high, low⟩ := getLongkey_injective (small _) (small _) (small _) (small _) eq
  exact ⟨narrow high, narrow low⟩

/-- The chain has the newest entry first, so the scan ends at the oldest put. -/
theorem lookup_reverse (chain : List HtData) (longkey : BitVec 64) :
    lookup chain.reverse longkey = (chain.find? fun cur => decide (cur.longkey = longkey)).map
      HtData.roffset := by
  unfold lookup
  rw [List.foldl_reverse]
  induction chain with
  | nil => rfl
  | cons first rest ih =>
    by_cases here : first.longkey = longkey
    · simp [here]
    · simp [here, ih]

@[simp] theorem puts_cons_put (poolId : Nat) (inode index : BitVec 32) (page : Page)
    (rest : List Call) :
    puts (.put poolId inode index page :: rest) = (key inode index, page) :: puts rest :=
  rfl

@[simp] theorem puts_concat_put (done : List Call) (poolId : Nat) (inode index : BitVec 32)
    (page : Page) :
    puts (done ++ [.put poolId inode index page]) = puts done ++ [(key inode index, page)] := by
  simp [puts, Call.entry]

@[simp] theorem puts_concat_get (done : List Call) (inode index : BitVec 32) :
    puts (done ++ [.get inode index]) = puts done := by
  simp [puts, Call.entry]

theorem puts_find (inode index : BitVec 32) (calls : List Call) :
    ((puts calls).find? fun put => decide (put.1 = key inode index)).map Prod.snd =
      firstPut inode index calls := by
  induction calls with
  | nil => rfl
  | cons call rest ih =>
    cases call with
    | get inode' index' => exact ih
    | put poolId inode' index' page =>
      by_cases same : inode' = inode ∧ index' = index
      · obtain ⟨rfl, rfl⟩ := same
        simp [firstPut, Call.pageOf]
      · have apart : key inode' index' ≠ key inode index := fun eq => same (key_injective eq)
        rw [puts_cons_put, List.find?_cons_of_neg (by simpa using apart), ih, firstPut, firstPut,
          List.findSome?_cons_of_isNone (by simp [Call.pageOf, same])]

section
variable {hashMin : BitVec 64 → Nat} {s t : Backend} {ledger : List (BitVec 64 × Page)}
  {done calls : List Call}

/-- What the backend holds after some puts. -/
structure Holds (hashMin : BitVec 64 → Nat) (s : Backend)
    (ledger : List (BitVec 64 × Page)) : Prop where
  next : s.mrFreeStart = pageSize * ledger.length
  fits : ledger.length ≤ numPages
  chains : ∀ bucket, s.hashHead bucket =
    ((entries ledger).filter fun cur => decide (hashMin cur.longkey = bucket)).reverse
  pages : ∀ i put, ledger[i]? = some put → read pageSize s.dramBuf (pageSize * i) = put.2

theorem Holds.start : Holds hashMin start [] where
  next := rfl
  fits := Nat.zero_le _
  chains _ := rfl
  pages i put found := by simp at found

/-- The offset that a search finds belongs to the oldest put of the key. -/
theorem Holds.lookup_eq (holds : Holds hashMin s ledger) (longkey : BitVec 64) :
    lookup (s.hashHead (hashMin longkey)) longkey =
      (ledger.zipIdx.find? fun put => decide (put.1.1 = longkey)).map fun put =>
        pageSize * put.2 := by
  have own : ∀ cur : HtData, (hashMin cur.longkey = hashMin longkey ∧ cur.longkey = longkey) ↔
      cur.longkey = longkey :=
    fun cur => ⟨And.right, fun same => ⟨congrArg hashMin same, same⟩⟩
  rw [holds.chains, lookup_reverse, List.find?_filter]
  simp only [decide_eq_true_eq, own, entries, List.find?_map, Option.map_map]
  rfl

theorem Holds.getPage_eq (holds : Holds hashMin s ledger) (inode index : BitVec 64) :
    getPage hashMin s inode index =
      some ((ledger.find? fun put => decide (put.1 = getLongkey inode index)).map Prod.snd) := by
  have first : ledger.find? (fun put => decide (put.1 = getLongkey inode index)) =
      (ledger.zipIdx.find? fun put => decide (put.1.1 = getLongkey inode index)).map Prod.fst := by
    conv_lhs => rw [← List.zipIdx_map_fst 0 ledger, List.find?_map]
    rfl
  simp only [getPage, holds.lookup_eq, first]
  cases found : ledger.zipIdx.find? fun put => decide (put.1.1 = getLongkey inode index) with
  | none => rfl
  | some put =>
    have here : ledger[put.2]? = some put.1 :=
      List.mem_zipIdx_iff_getElem?.mp (List.mem_of_find?_eq_some found)
    have lt : put.2 < ledger.length := (List.getElem?_eq_some_iff.mp here).1
    have inside : pageSize * put.2 + pageSize ≤ remoteBufSize := by
      rw [← Nat.mul_succ]
      exact Nat.mul_le_mul_left pageSize (lt.trans_le holds.fits)
    simp [inside, holds.pages _ _ here]

theorem entries_concat (ledger : List (BitVec 64 × Page)) (put : BitVec 64 × Page) :
    entries (ledger ++ [put]) = entries ledger ++ [⟨put.1, pageSize * ledger.length⟩] := by
  simp [entries, List.zipIdx_append]

theorem Holds.put (holds : Holds hashMin s ledger) (room : ledger.length < numPages) (poolId : Nat)
    (inode index : BitVec 64) (page : Page) :
    ∃ t, putPage hashMin s poolId inode index page = some t ∧
      Holds hashMin t (ledger ++ [(getLongkey inode index, page)]) := by
  have inside : s.mrFreeStart + pageSize ≤ remoteBufSize := by
    rw [holds.next, ← Nat.mul_succ]
    exact Nat.mul_le_mul_left pageSize room
  have open_ : s.mrFreeStart ≠ remoteBufSize := by
    have : 0 < pageSize := by decide
    omega
  refine ⟨_, by simp only [putPage, Int.not_ofNat_neg, if_false, inside, if_true]; rfl, ?_,
    ?_, ?_, ?_⟩
  · rw [fetchAddUnless, if_neg open_, holds.next, List.length_append,
      List.length_singleton, Nat.mul_succ]
  · simpa using room
  · intro bucket
    by_cases here : bucket = hashMin (getLongkey inode index)
    · simp [entries_concat, List.filter_append, here, holds.chains, holds.next]
    · simp [entries_concat, List.filter_append, Function.update_of_ne here, holds.chains,
        Ne.symm here]
  · intro i put found
    by_cases last : i = ledger.length
    · subst last
      have eq : put = (getLongkey inode index, page) := by simpa [eq_comm] using found
      rw [eq, ← holds.next]
      exact read_write_self ..
    · have bound : i < (ledger ++ [(getLongkey inode index, page)]).length :=
        (List.getElem?_eq_some_iff.mp found).1
      have lt : i < ledger.length := by
        simp only [List.length_append, List.length_singleton] at bound
        omega
      have old : ledger[i]? = some put := by rwa [List.getElem?_append_left lt] at found
      rw [← holds.pages i put old]
      refine read_write_apart _ _ (Or.inl ?_)
      rw [holds.next, ← Nat.mul_succ]
      exact Nat.mul_le_mul_left pageSize lt

theorem Holds.put_full (holds : Holds hashMin s ledger) (full : ledger.length = numPages)
    (poolId : Nat) (inode index : BitVec 64) (page : Page) :
    putPage hashMin s poolId inode index page = none := by
  have outside : ¬ s.mrFreeStart + pageSize ≤ remoteBufSize := by
    have : 0 < pageSize := by decide
    rw [holds.next, full]
    unfold remoteBufSize
    omega
  simp [putPage, outside]

theorem Holds.step (holds : Holds hashMin s (puts done)) (call : Call)
    (room : (puts (done ++ [call])).length ≤ numPages) :
    ∃ t, step hashMin s call = some t ∧ Holds hashMin t (puts (done ++ [call])) := by
  cases call with
  | put poolId inode index page =>
    rw [puts_concat_put] at room ⊢
    exact holds.put (by simpa using room) poolId (inode.setWidth 64) (index.setWidth 64) page
  | get inode index =>
    rw [puts_concat_get]
    exact ⟨s, by simp [Dram.step, holds.getPage_eq], holds⟩

theorem holds_of_run (reached : Runs.run (step hashMin) start done = some s) :
    Holds hashMin s (puts done) := by
  induction done using List.reverseRecOn generalizing s with
  | nil =>
    cases reached
    exact Holds.start
  | append_singleton done call ih =>
    obtain ⟨s', before, last⟩ := Runs.step_of_run reached
    have holds := ih before
    by_cases room : (puts (done ++ [call])).length ≤ numPages
    · obtain ⟨t, next, holdsT⟩ := holds.step call room
      cases last.symm.trans next
      exact holdsT
    · -- only a put can be one too many, and it does not return
      cases call with
      | get inode index => exact absurd (by simpa using holds.fits) room
      | put poolId inode index page =>
        have full : (puts done).length = numPages := by
          have fits := holds.fits
          simp only [puts_concat_put, List.length_append, List.length_singleton] at room
          omega
        exact absurd (last.symm.trans (holds.put_full full poolId _ _ page)) (by simp)

theorem run_of_room (room : (puts done).length ≤ numPages) :
    ∃ s, Runs.run (step hashMin) start done = some s := by
  induction done using List.reverseRecOn with
  | nil => exact ⟨start, rfl⟩
  | append_singleton done call ih =>
    have less : (puts done).length ≤ (puts (done ++ [call])).length := by simp [puts]
    obtain ⟨s, before⟩ := ih (less.trans room)
    obtain ⟨t, next, -⟩ := (holds_of_run before).step call room
    exact ⟨t, by simp [Runs.run_concat, before, next]⟩

theorem answer_get (reached : Runs.run (step hashMin) start done = some s)
    (inode index : BitVec 32) :
    answer hashMin s (.get inode index) = firstPut inode index done := by
  simp only [answer, (holds_of_run reached).getPage_eq, Option.join_some]
  exact puts_find inode index done

/-- Room for every put, and no get of a page whose first and last put differ. -/
def Suitable (calls : List Call) : Prop :=
  (puts calls).length ≤ numPages ∧
    ∀ done inode index, done ++ [.get inode index] <+: calls →
      firstPut inode index done = lastPut inode index done

theorem firstPut_eq_none {inode index : BitVec 32} :
    firstPut inode index done = none ↔ lastPut inode index done = none := by
  simp [firstPut, lastPut]

theorem room_of_fresh (fresh : Fresh hashMin calls) : (puts calls).length ≤ numPages := by
  cases calls using List.reverseRecOn with
  | nil => exact Nat.zero_le _
  | append_singleton done call =>
    obtain ⟨s, t, reached, next, -⟩ := fresh done call (List.prefix_refl _)
    have final : Runs.run (step hashMin) start (done ++ [call]) = some t := by
      simp [Runs.run_concat, reached, next]
    exact (holds_of_run final).fits

/-- The backend returns fresh pages exactly when the buffer is large enough and no get meets an
older put with other contents. -/
theorem fresh_iff_suitable (hashMin : BitVec 64 → Nat) (calls : List Call) :
    Fresh hashMin calls ↔ Suitable calls := by
  constructor
  · intro fresh
    refine ⟨room_of_fresh fresh, fun done inode index le => ?_⟩
    obtain ⟨s, t, reached, -, delivered⟩ := fresh done _ le
    cases oldest : firstPut inode index done with
    | none => exact (firstPut_eq_none.mp oldest).symm
    | some page =>
      exact (delivered inode index page rfl ((answer_get reached inode index).trans oldest)).symm
  · rintro ⟨room, same⟩ done call le
    have fewer : ∀ {early : List Call}, early <+: calls → (puts early).length ≤ numPages :=
        fun le' =>
      ((le'.filterMap Call.entry).length_le).trans room
    obtain ⟨s, reached⟩ := @run_of_room hashMin done (fewer ((List.prefix_append _ _).trans le))
    obtain ⟨t, next, -⟩ := (holds_of_run reached).step call (fewer le)
    refine ⟨s, t, reached, next, ?_⟩
    rintro inode index page rfl delivered
    rw [answer_get reached] at delivered
    rw [← same done inode index le, delivered]

/-- A page that is put twice comes back with its first contents, and the put after the last free
page is copied behind the buffer. -/
theorem stale_page_and_full_buffer :
    ¬ Fresh (fun _ => 0) [.put 0 1 0 fun _ => 1, .put 0 1 0 fun _ => 2, .get 1 0] ∧
      ¬ Fresh (fun _ => 0) (List.replicate (numPages + 1) (.put 0 1 0 fun _ => 1)) := by
  constructor
  · intro fresh
    obtain ⟨s, t, reached, -, delivered⟩ :=
      fresh [.put 0 1 0 fun _ => 1, .put 0 1 0 fun _ => 2] _ (List.prefix_refl _)
    have newest := delivered 1 0 (fun _ => 1) rfl (answer_get reached 1 0)
    have differ : (fun _ => 2 : Page) ≠ fun _ => 1 :=
      fun eq => absurd (congrFun eq ⟨0, by decide⟩) (by decide)
    exact differ (Option.some.inj newest)
  · intro fresh
    have room := room_of_fresh fresh
    simp [puts, Call.entry, List.filterMap_replicate] at room

end

end Xcache.Dram
