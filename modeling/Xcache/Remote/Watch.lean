import Xcache.Remote.Fresh
import Xcache.Remote.Notice

/-! Gets over a perfect map that are due a page: it passes the filter of the client and is found by
the server, whatever else the clients put. -/

namespace Xcache.Remote

/-- The remote store, with its fresh pages and the beginnings of its senders in view. -/
structure Watch (σ : Type) where
  fresh : Fresh σ
  since : Client → Client × Queue → Nat

namespace Watch

section
variable {σ : Type} (H : IHash σ) (cfg : Config)

def notice (s : Watch σ) : Notice σ := ⟨s.fresh.sys, s.since⟩

def note (s : Watch σ) (sys : System σ) (e : Event) : Watch σ :=
  ⟨s.fresh.note cfg sys e, s.fresh.sys.books.mind s.since e⟩

def step (s : Watch σ) (e : Event) : Option (Watch σ) :=
  (s.fresh.sys.step H cfg e).map (s.note cfg · e)

def start (sys : System σ) : Watch σ := ⟨Fresh.start sys, fun _ _ => 0⟩

/-- A get that was due a page has returned 0 and delivered that page. -/
def LoadsBack (s : Watch σ) : Prop := ∀ a ∈ s.fresh.answers, ∀ due ∈ a.1, a.2 = some due

/-- The conditions on one step. -/
structure Permits (s : Watch σ) (e : Event) : Prop where
  fits : s.fresh.sys.Fits e
  orderly : s.fresh.Orderly cfg e
  heedful : s.fresh.sys.books.Heedful s.since e

end

section
variable {σ : Type} {H : IHash σ} {empty : σ}

/-- The counters of the keys are positive, and nothing but these is found. -/
def Counted (H : IHash σ) (f : BloomFilter) (kv : KV σ) (K : Set Key) : Prop :=
  (∀ bf, kv.bf = some bf → (bf.numBits = f.bitmapSize ∧ bf.numHashes = f.nrHash) ∧
    ∀ key ∈ K, ∀ i ∈ bf.indices key, 0 < bf.counters i) ∧
  ∀ key value, kv.get H key = some value → value ≠ noneValue → key ∈ K

/-- Nothing leaves a perfect map, so that its counters only grow. -/
theorem telling_of_perfect (perfect : H.Perfect empty) (f : BloomFilter) :
    Telling H f (fun _ _ => True) (Counted H f) where
  shape := fun told filter => (told.1 _ filter).1
  positive := fun told filter => (told.1 _ filter).2
  found := fun told => told.2 _ _
  insert := by
    intro kv K key value kv' evicted told _ step
    unfold KV.insert at step
    split at step
    · cases step
    · rename_i hash d inserted
      cases step
      obtain ⟨rfl, get⟩ := perfect.insert_eq inserted
      refine ⟨insert key K, subset_rfl, fun bf' filter' => ?_, fun k v got some => ?_⟩
      · obtain ⟨bf, filter, rfl⟩ := Option.map_eq_some_iff.mp filter'
        obtain ⟨shape, positive⟩ := told.1 bf filter
        refine ⟨shape, fun k mem i index => ?_⟩
        have index : i ∈ bf.indices k := index
        show 0 < (bf.insert key).counters i
        rw [CountingBloomFilter.positive_insert]
        rcases mem with rfl | old
        · exact Or.inr index
        · exact Or.inl (positive k old i index)
      · have got : H.get hash k = Option.some v := got
        rw [get k] at got
        split at got
        · rename_i same
          exact Set.mem_insert_iff.mpr (Or.inl same)
        · exact Set.mem_insert_of_mem key (told.2 k v got some)
  send := by
    rintro kv K bf ⟨counted, found⟩ filter words
    refine ⟨?_, found⟩
    rintro _ ⟨⟩
    exact counted bf filter

end

section
variable {σ : Type} {H : IHash σ} {cfg : Config} {own : Client → Set Key}
  {bufferSize globalMr : BitVec 64}
  {empty : σ} {f : BloomFilter} {s t : Watch σ} {e : Event} {sys : System σ}

/-- Every client asks for keys of its own, and what is due is shown by its filter. -/
structure Inv (H : IHash σ) (cfg : Config) (own : Client → Set Key)
    (bufferSize globalMr : BitVec 64) (empty : σ) (f : BloomFilter) (s : Watch σ) : Prop where
  fresh : s.fresh.Inv H cfg bufferSize globalMr empty
  owned : ∀ ix n call, (s.fresh.sys.readQs ix).calls n = some call → call.key ∈ own ix.1
  noted : s.fresh.sys.server.Roomy → ∀ c, s.notice.Inv f c (own c) (Counted H f)
  loaded : s.fresh.sys.server.Roomy → s.LoadsBack

theorem inv_start {nrHash bitmapSize : Nat} {kv : KV σ} (perfect : H.Perfect kv.hash)
    (shape : ∀ bf, kv.bf = some bf → bf.numBits = bitmapSize ∧ bf.numHashes = nrHash)
    (own : Client → Set Key) (mem : Nat → Memory.Byte) :
    (start (System.start bufferSize globalMr mem kv nrHash bitmapSize)).Inv H cfg own bufferSize
      globalMr
      kv.hash ⟨nrHash, bitmapSize, fun _ => 0⟩ where
  fresh := Fresh.inv_start mem kv nrHash bitmapSize
  owned := nofun
  noted := by
    refine fun _ c => Notice.inv_start ⟨fun bf filter => ⟨shape bf filter, nofun⟩,
      fun key value got some => ?_⟩ c (own c) mem
    have got : H.get kv.hash key = Option.some value := got
    rw [perfect.get_empty key, Option.some_inj] at got
    exact absurd got.symm some
  loaded := fun _ => nofun

theorem Inv.shown (inv : s.Inv H cfg own bufferSize globalMr empty f) (perfect : H.Perfect empty)
    (roomy : s.fresh.sys.server.Roomy) {ix : Client × Queue} {n : Nat} {call : GetCall}
    {d : Key × Page} (here : (s.fresh.sys.readQs ix).calls n = some call)
    (due : s.fresh.due ix n = some d) :
    (s.fresh.sys.filters ix.1).check call.key = true := by
  obtain ⟨key, page⟩ := d
  obtain rfl : key = call.key := inv.fresh.asked ix n call here _ due
  have tidy := inv.fresh.tidy roomy
  obtain ⟨returned, none⟩ := tidy.due ix n _ page due
  have held : s.fresh.sys.held H call.key = some page := (tidy.returned _ page returned).held none
  obtain ⟨value, found, _⟩ := Option.map_eq_some_iff.mp held
  obtain ⟨value', got, eq⟩ := Option.bind_eq_some_iff.mp found
  have some : value' ≠ noneValue := by
    unfold ReadQueue.found at eq
    split at eq
    · assumption
    · cases eq
  exact (inv.noted roomy ix.1).check (telling_of_perfect perfect f) (inv.owned ix n call here)
    got some

theorem Inv.answered (inv : s.Inv H cfg own bufferSize globalMr empty f) (perfect : H.Perfect empty)
    (roomy : s.fresh.sys.server.Roomy) (moved : s.fresh.sys.step H cfg e = some sys) :
    ∀ a ∈ s.fresh.answered sys e, ∀ due ∈ a.1, a.2 = some due := by
  intro a new
  rcases inv.fresh.answered roomy moved a new with
    ok | ⟨c', q, n, call, i, owed, _, here, lt, clear⟩
  · exact ok
  · -- the filter does not end a call that is due a page
    intro due mem
    rw [owed] at mem
    obtain ⟨d, known, _⟩ := Option.map_eq_some_iff.mp mem
    have shown := inv.shown perfect roomy here known
    rw [BloomFilter.check_iff_shows] at shown
    rw [shown i lt] at clear
    cases clear

theorem Inv.step (inv : s.Inv H cfg own bufferSize globalMr empty f) (perfect : H.Perfect empty)
    (pos : 0 < f.bitmapSize) (small : f.bitmapSize < 2 ^ 31) (few : e.Few cfg)
    (permits : s.Permits cfg e)
    (puts : ∀ c c' cpuid n key page, e = .startPut c' cpuid n key page → key ∈ own c → c' = c)
    (gets : ∀ c cpuid n key raddr, e = .startGet c cpuid n key raddr → key ∈ own c)
    (moved : s.fresh.sys.step H cfg e = some sys) :
    (s.note cfg sys e).Inv H cfg own bufferSize globalMr empty f := by
  have turn := System.turn_of_step moved
  have fresh := inv.fresh.step perfect ⟨few, permits.fits, permits.orderly⟩ moved
  refine ⟨fresh, fun ix n call' there => ?_, fun roomy' c => ?_, fun roomy' a mem => ?_⟩
  · rcases turn.gets there with ⟨call, here, eq⟩ | ⟨c', cpuid, key, raddr, eq, rfl, rfl⟩
    · rw [show call'.key = call.key by rw [eq]]
      exact inv.owned ix n call here
    · exact gets c' cpuid n key raddr eq
  · exact (inv.noted (turn.roomy roomy') c).step (telling_of_perfect perfect f) pos small moved
      fresh.sound roomy' (System.spacious_of_all (fun _ _ => trivial) _ _) permits.heedful (puts c)
  · rcases List.mem_append.mp mem with old | new
    · exact inv.loaded (turn.roomy roomy') a old
    · exact inv.answered perfect (turn.roomy roomy') moved a new

end

end Watch

end Xcache.Remote
