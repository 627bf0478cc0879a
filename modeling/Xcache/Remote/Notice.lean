import Xcache.Remote.Books
import Xcache.Store.KV

/-! Notice of the keys: the bitmap of a client, between the adds of its own puts and the words
that the server packs from its counters and pushes later. -/

namespace Xcache
open Function

namespace BloomFilter

/-- A bitmap has the first `n` bits of the key. -/
def Shows (f : BloomFilter) (w : Nat → Nat) (key : Key) (n : Nat) : Prop :=
  ∀ i < n, Bitmap.marked w (f.index key i) = true

/-- It has those of them that are in word `j`. -/
def ShowsIn (f : BloomFilter) (w : Nat → Nat) (j : Nat) (key : Key) (n : Nat) : Prop :=
  ∀ i < n, f.index key i / 64 = j → Bitmap.marked w (f.index key i) = true

variable {f : BloomFilter} {w w' : Nat → Nat} {key : Key} {n : Nat}

theorem index_lt (pos : 0 < f.bitmapSize) (key : Key) (i : Nat) : f.index key i < f.bitmapSize :=
  (Nat.mod_le _ _).trans_lt (Nat.mod_lt _ pos)

theorem check_iff_shows (f : BloomFilter) (key : Key) :
    f.check key = true ↔ f.Shows f.bitmap key f.nrHash := by
  unfold check Shows
  rw [List.all_eq_true]
  exact forall_congr' fun i => by rw [List.mem_range]; rfl

theorem Shows.mono {m : Nat} (shows_ : f.Shows w key n) (le : m ≤ n) : f.Shows w key m :=
  fun i lt => shows_ i (lt.trans_le le)

theorem Shows.grow (shows_ : f.Shows w key n)
    (more : ∀ i, Bitmap.marked w i = true → Bitmap.marked w' i = true) : f.Shows w' key n :=
  fun i lt => more _ (shows_ i lt)

theorem Shows.replace {words : Nat → Nat} {j : Nat} (shows_ : f.Shows w key n)
    (sent : f.ShowsIn words j key n) : f.Shows (update w j (words j)) key n := by
  intro i lt
  rw [Remote.Sender.marked_replaced]
  split
  · rename_i here
    exact sent i lt here
  · exact shows_ i lt

end BloomFilter

namespace Remote

/-- A store whose counters tell of the keys `K` that it may hold, for clients with filters like
`f`. -/
structure Telling {σ : Type} (H : IHash σ) (f : BloomFilter) (room : KV σ → Key → Prop)
    (tells : KV σ → Set Key → Prop) : Prop where
  shape : ∀ {kv K bf}, tells kv K → kv.bf = some bf →
    bf.numBits = f.bitmapSize ∧ bf.numHashes = f.nrHash
  positive : ∀ {kv K bf}, tells kv K → kv.bf = some bf →
    ∀ key ∈ K, ∀ i ∈ bf.indices key, 0 < bf.counters i
  found : ∀ {kv K key value}, tells kv K → kv.get H key = some value → value ≠ noneValue → key ∈ K
  insert : ∀ {kv K key value kv' evicted}, tells kv K → room kv key →
    kv.insert H key value = some (kv', evicted) → ∃ K' ⊆ insert key K, tells kv' K'
  send : ∀ {kv K bf}, tells kv K → kv.bf = some bf →
    ∀ words, tells ⟨kv.hash, some { bf with words := words }⟩ K

section
variable {σ : Type} {H : IHash σ} {cfg : Config} {f : BloomFilter} {room : KV σ → Key → Prop}
  {tells : KV σ → Set Key → Prop} {c c' : Client} {own : Set Key} {since : Queue → Nat}
  {b b' : Books σ} {w : Nat → Nat} {K : Set Key} {e : Event}

/-- An entry of the key was not inserted when the sender of the client began. -/
def Books.Late (b : Books σ) (c : Client) (since : Queue → Nat) (key : Key) : Prop :=
  ∃ q n page, since q ≤ n ∧ (b.puts (c, q))[n]? = some (key, page)

/-- The bits that a push has to bring: those of the client's keys held, the late ones apart. -/
def Books.Due (b : Books σ) (f : BloomFilter) (c : Client) (own : Set Key) (since : Queue → Nat)
    (K : Set Key) (i : Nat) : Prop :=
  ∃ key ∈ K, key ∈ own ∧ ¬ b.Late c since key ∧ ∃ j < f.nrHash, f.index key j = i

/-- Only client `c` puts the keys `own`. Its bitmap has the bits of each of these that is held or
on its way, as far as they are added, and its sender has packed those of the keys held when it
began. -/
structure Noted (f : BloomFilter) (c : Client) (own : Set Key) (tells : KV σ → Set Key → Prop)
    (since : Queue → Nat) (b : Books σ) (w : Nat → Nat) (K : Set Key) : Prop where
  filter : b.filters c = { f with bitmap := w }
  tells : tells b.kv K
  foreign : ∀ ix : Client × Queue, ix.1 ≠ c →
    (∀ n call, b.calls ix n = some call → call.key ∉ own) ∧ ∀ p ∈ b.puts ix, p.1 ∉ own
  calls : ∀ q n call, b.calls (c, q) n = some call → f.Shows w call.key (call.pc.added f.nrHash)
  waiting : ∀ q n p, b.inserted (c, q) ≤ n → (b.puts (c, q))[n]? = some p → f.Shows w p.1 f.nrHash
  held : ∀ key ∈ K, key ∈ own → f.Shows w key f.nrHash
  sender : b.senders c ≠ .idle → (∀ q, since q ≤ b.inserted (c, q)) ∧ ∀ bf, b.kv.bf = some bf →
    (b.senders c).Progress bf.numBits bf.words w (b.Due f c own since K)

/-- Of the bits added to the client's bitmap none is lost: no put writes back a word that lacks a
bit set meanwhile, the senders write packed words one at a time, and no word is pushed that lacks
bits of a put that was not inserted when its sender began. -/
def Books.Heedful (b : Books σ) (since : Client → Client × Queue → Nat) : Event → Prop
  | .put c q n => ∀ call i word, b.calls (c, q) n = some call → call.pc = .mark i word →
      ∀ bit, ((b.filters c).bitmap ((b.filters c).index call.key i / 64)).testBit bit = true →
        word.testBit bit = true
  | .send c => ∀ bf, b.kv.bf = some bf →
      ((b.senders c).Writes bf → ∀ c' ≠ c, b.senders c' = .idle) ∧
      ∀ j, b.senders c = .sending j →
        (∀ q n call, b.calls (c, q) n = some call →
          (b.filters c).ShowsIn bf.words j call.key (call.pc.added (b.filters c).nrHash)) ∧
        ∀ q n p, since c (c, q) ≤ n → (b.puts (c, q))[n]? = some p →
          (b.filters c).ShowsIn bf.words j p.1 (b.filters c).nrHash
  | _ => True

theorem Noted.set {ix : Client × Queue} {n : Nat} {next : Option PutCall}
    (noted : Noted f c own tells since b w K)
    (shows_ : ix.1 = c → ∀ call ∈ next, f.Shows w call.key (call.pc.added f.nrHash))
    (foreign : ix.1 ≠ c → ∀ call ∈ next, call.key ∉ own) :
    Noted f c own tells since (b.set ix n next) w K := by
  refine { noted with
    foreign := fun ix' other => ⟨fun n' call there => ?_, (noted.foreign ix' other).2⟩
    calls := fun q n' call there => ?_ }
  · rcases Books.set_cases there with ⟨rfl, new⟩ | old
    · exact foreign other call new
    · exact (noted.foreign ix' other).1 n' call old
  · rcases Books.set_cases there with ⟨rfl, new⟩ | old
    · exact shows_ rfl call new
    · exact noted.calls q n' call old

theorem Noted.goesOn {ix : Client × Queue} {n : Nat} {call : PutCall} {pc : PutPc}
    (noted : Noted f c own tells since b w K) (here : b.calls ix n = some call)
    (added : ix.1 = c → f.Shows w call.key (call.pc.added f.nrHash) →
      f.Shows w call.key (pc.added f.nrHash)) :
    Noted f c own tells since (b.set ix n (some { call with pc := pc })) w K := by
  refine noted.set ?_ ?_
  · rintro rfl _ ⟨⟩
    exact added rfl (noted.calls ix.2 n call here)
  · rintro other _ ⟨⟩
    exact (noted.foreign ix other).1 n call here

theorem Noted.setBitmap_other {w' : Nat → Nat} (noted : Noted f c own tells since b w K)
    (ne : c' ≠ c) :
    Noted f c own tells since (b.setBitmap c' w') w K :=
  { noted with filter := (update_of_ne ne.symm ..).trans noted.filter }

theorem Noted.setBitmap {w' : Nat → Nat} (noted : Noted f c own tells since b w K)
    (calls : ∀ q n call, b.calls (c, q) n = some call →
      f.Shows w' call.key (call.pc.added f.nrHash))
    (waiting : ∀ q n p, b.inserted (c, q) ≤ n → (b.puts (c, q))[n]? = some p →
      f.Shows w' p.1 f.nrHash)
    (held : ∀ key ∈ K, key ∈ own → f.Shows w' key f.nrHash)
    (sender : b.senders c ≠ .idle → (∀ q, since q ≤ b.inserted (c, q)) ∧ ∀ bf, b.kv.bf = some bf →
      (b.senders c).Progress bf.numBits bf.words w' (b.Due f c own since K)) :
    Noted f c own tells since (b.setBitmap c w') w' K := by
  refine ⟨?_, noted.tells, noted.foreign, calls, waiting, held, sender⟩
  show update b.filters c _ c = _
  rw [update_self, noted.filter]

theorem Noted.grow {w' : Nat → Nat} (noted : Noted f c own tells since b w K)
    (more : ∀ i, Bitmap.marked w i = true → Bitmap.marked w' i = true) :
    Noted f c own tells since (b.setBitmap c w') w' K := by
  refine noted.setBitmap (fun q n call here => (noted.calls q n call here).grow more)
    (fun q n p le put => (noted.waiting q n p le put).grow more)
    (fun key mem mine => (noted.held key mem mine).grow more) fun busy => ?_
  obtain ⟨le, progress⟩ := noted.sender busy
  exact ⟨le, fun bf filter => (progress bf filter).mono (fun _ due => due) more⟩

theorem Noted.mark {q : Queue} {n i word : Nat} {call : PutCall}
    (noted : Noted f c own tells since b w K) (here : b.calls (c, q) n = some call)
    (before : call.pc = .mark i word)
    (keeps : ∀ bit, (w (f.index call.key i / 64)).testBit bit = true → word.testBit bit = true) :
    Noted f c own tells since ((b.setBitmap c (update w (f.index call.key i / 64)
        (word ||| 1 <<< (64 - 1 - f.index call.key i % 64)))).set (c, q) n
          (some { call with pc := .load (i + 1) }))
      (update w (f.index call.key i / 64)
        (word ||| 1 <<< (64 - 1 - f.index call.key i % 64))) K := by
  obtain ⟨more, new⟩ := Bitmap.marked_store keeps
  refine (noted.grow more).goesOn here fun _ _ j lt => ?_
  have mine := noted.calls q n call here
  rw [before] at mine
  rcases Nat.lt_succ_iff_lt_or_eq.mp lt with old | rfl
  · exact more _ (mine j old)
  · exact new

theorem Noted.copy {ix : Client × Queue} {p : Key × Page} (noted : Noted f c own tells since b w K)
    (mine : ix.1 = c → f.Shows w p.1 f.nrHash) (foreign : ix.1 ≠ c → p.1 ∉ own) :
    Noted f c own tells since
      { b with puts := update b.puts ix (b.puts ix ++ [p]) } w K := by
  have puts : ∀ (ix' : Client × Queue) (m : Nat) (p' : Key × Page),
      (update b.puts ix (b.puts ix ++ [p]) ix')[m]? = some p' →
      (b.puts ix')[m]? = some p' ∨ ix' = ix ∧ p' = p := by
    intro ix' m p' put
    by_cases here : ix' = ix
    · rw [here, update_self, List.getElem?_append] at put
      split at put
      · exact Or.inl (here ▸ put)
      · exact Or.inr ⟨here, List.mem_singleton.mp (List.mem_of_getElem? put)⟩
    · rw [update_of_ne here] at put
      exact Or.inl put
  refine { noted with
    foreign := fun ix' other => ⟨(noted.foreign ix' other).1, fun p' mem => ?_⟩
    waiting := fun q m p' le put => ?_
    sender := fun busy => ?_ }
  · obtain ⟨m, put⟩ := List.mem_iff_getElem?.mp mem
    rcases puts ix' m p' put with old | ⟨rfl, rfl⟩
    · exact (noted.foreign ix' other).2 p' (List.mem_of_getElem? old)
    · exact foreign other
  · rcases puts (c, q) m p' put with old | ⟨rfl, rfl⟩
    · exact noted.waiting q m p' le old
    · exact mine rfl
  · obtain ⟨le, progress⟩ := noted.sender busy
    refine ⟨le, fun bf filter => (progress bf filter).mono ?_ fun _ set => set⟩
    rintro i ⟨key, mem, own, inTime, bit⟩
    refine ⟨key, mem, own, ?_, bit⟩
    rintro ⟨q, m, page, later, put⟩
    refine inTime ⟨q, m, page, later, ?_⟩
    show (update b.puts ix _ (c, q))[m]? = _
    by_cases here : (c, q) = ix
    · rw [← here, update_self, List.getElem?_append_left
        (List.getElem?_eq_some_iff.mp put).1, put]
    · rw [update_of_ne here, put]

theorem Noted.insert {q : Queue} {key : Key} {page : Page} {value : Value} {kv : KV σ}
    {evicted : Bool} (noted : Noted f c own tells since b w K) (telling : Telling H f room tells)
    (oldest : (b.puts (c', q))[b.inserted (c', q)]? = some (key, page)) (fits : room b.kv key)
    (inserts : b.kv.insert H key value = some (kv, evicted)) :
    ∃ K', Noted f c own tells since { b with
      kv := kv
      inserted := update b.inserted (c', q) (b.inserted (c', q) + 1) } w K' := by
  obtain ⟨K', sub, tells'⟩ := telling.insert noted.tells fits inserts
  -- a key of the client comes from one of its own queues
  have mine : key ∈ own → c' = c := by
    intro mine
    by_contra ne
    exact (noted.foreign (c', q) ne).2 _ (List.mem_of_getElem? oldest) mine
  have more : ∀ q', b.inserted (c, q') ≤
      update b.inserted (c', q) (b.inserted (c', q) + 1) (c, q') := by
    intro q'
    by_cases same : (c, q') = (c', q)
    · rw [same, update_self]
      exact Nat.le_succ _
    · rw [update_of_ne same]
  refine ⟨K', noted.filter, tells', noted.foreign, noted.calls,
    fun q' m p le => noted.waiting q' m p ((more q').trans le), fun k mem owned => ?_,
      fun busy => ?_⟩
  · rcases Set.mem_insert_iff.mp (sub mem) with rfl | old
    · obtain rfl := mine owned
      exact noted.waiting q (b.inserted (c', q)) (k, page) le_rfl oldest
    · exact noted.held k old owned
  · obtain ⟨le, progress⟩ := noted.sender busy
    refine ⟨fun q' => (le q').trans (more q'), fun bf' filter' => ?_⟩
    have packed := KV.insert_packed inserts
    rw [show kv.bf = some bf' from filter', Option.map_some] at packed
    obtain ⟨bf, filter, eq⟩ := Option.map_eq_some_iff.mp packed.symm
    obtain ⟨bits, words⟩ := Prod.mk.inj eq
    rw [← bits, ← words]
    refine (progress bf filter).mono ?_ fun _ set => set
    rintro i ⟨k, mem, owned, inTime, bit⟩
    rcases Set.mem_insert_iff.mp (sub mem) with rfl | old
    · obtain rfl := mine owned
      exact absurd ⟨q, b.inserted (c', q), page, le q, oldest⟩ inTime
    · exact ⟨k, old, owned, inTime, bit⟩

theorem Noted.begin {bf : CountingBloomFilter} (noted : Noted f c own tells since b w K)
    (telling : Telling H f room tells) (filter : b.kv.bf = some bf) (idle : b.senders c = .idle) :
    Noted f c own tells (fun q => b.inserted (c, q)) (b.send c bf) w K := by
  have bitmap : (b.filters c).bitmap = w := by rw [noted.filter]
  unfold Books.send
  rw [idle, bitmap]
  refine Noted.setBitmap ⟨noted.filter, telling.send noted.tells filter _, noted.foreign,
    noted.calls, noted.waiting, noted.held, ?_⟩ noted.calls noted.waiting noted.held ?_ <;>
  · intro _
    refine ⟨fun q => le_rfl, fun _ _ => ?_⟩
    show (update b.senders c (.clearing 0) c).Progress _ _ _ _
    rw [update_self]
    trivial

theorem shows_step {bf : CountingBloomFilter} {pc : Sender} {key : Key} {n : Nat}
    (shown : f.Shows w key n) (sent : ∀ j, pc = .sending j → f.ShowsIn bf.words j key n) :
    f.Shows (pc.step bf w).bitmap key n := by
  cases pc with
  | idle | storing => exact shown
  | clearing j =>
    rw [Sender.step]
    split <;> exact shown
  | testing i =>
    rw [Sender.step]
    split
    · split <;> exact shown
    · exact shown
  | sending j =>
    rw [Sender.step]
    split
    · exact shown.replace (sent j rfl)
    · exact shown

section
variable (pos : 0 < f.bitmapSize) (small : f.bitmapSize < 2 ^ 31)
include pos small

theorem Noted.positive {bf : CountingBloomFilter} (noted : Noted f c own tells since b w K)
    (telling : Telling H f room tells) (filter : b.kv.bf = some bf) {i : Nat}
    (due : b.Due f c own since K i) : 0 < bf.counters i := by
  obtain ⟨key, mem, _, _, j, lt, rfl⟩ := due
  obtain ⟨size, hashes⟩ := telling.shape noted.tells filter
  refine telling.positive noted.tells filter key mem _ ?_
  rw [← indices_eq (size ▸ pos) (size ▸ small) size.symm hashes.symm key]
  exact List.mem_map_of_mem (List.mem_range.mpr lt)

theorem Noted.send {bf : CountingBloomFilter} (noted : Noted f c own tells since b w K)
    (telling : Telling H f room tells) (filter : b.kv.bf = some bf) (busy : b.senders c ≠ .idle)
    (calls : ∀ j, b.senders c = .sending j → ∀ q n call, b.calls (c, q) n = some call →
      f.ShowsIn bf.words j call.key (call.pc.added f.nrHash))
    (puts : ∀ j, b.senders c = .sending j → ∀ q n p, since q ≤ n → (b.puts (c, q))[n]? = some p →
      f.ShowsIn bf.words j p.1 f.nrHash) :
    Noted f c own tells since (b.send c bf) ((b.senders c).step bf w).bitmap K := by
  have bitmap : (b.filters c).bitmap = w := by rw [noted.filter]
  obtain ⟨le, progress⟩ := noted.sender busy
  have moved := (progress bf filter).step fun i => noted.positive pos small telling filter
  unfold Books.send
  rw [bitmap]
  refine ⟨?_, telling.send noted.tells filter _, noted.foreign, fun q n call here => ?_,
    fun q n p waits put => ?_, fun key mem mine => ?_, fun _ => ⟨le, fun bf' filter' => ?_⟩⟩
  · show update b.filters c _ c = _
    rw [update_self]
    dsimp only
    rw [noted.filter]
  · exact shows_step (noted.calls q n call here) fun j at_ => calls j at_ q n call here
  · exact shows_step (noted.waiting q n p waits put) fun j at_ =>
      puts j at_ q n p ((le q).trans waits) put
  · refine shows_step (noted.held key mem mine) fun j at_ => ?_
    by_cases late : b.Late c since key
    · obtain ⟨q, n, page, later, put⟩ := late
      exact puts j at_ q n (key, page) later put
    · intro i lt _
      have packed := progress bf filter
      rw [at_] at packed
      refine packed.1 _ ?_ ⟨key, mem, mine, late, i, lt, rfl⟩
      rw [(telling.shape noted.tells filter).1]
      exact f.index_lt pos key i
  · cases filter'
    show (update b.senders c _ c).Progress _ _ _ _
    rw [update_self]
    exact moved

omit pos small in
/-- Another sender writes packed words only while that of the client sleeps. -/
theorem Noted.send_other {bf : CountingBloomFilter} (noted : Noted f c own tells since b w K)
    (telling : Telling H f room tells) (filter : b.kv.bf = some bf) (ne : c' ≠ c)
    (exclusive : (b.senders c').Writes bf → ∀ c'' ≠ c', b.senders c'' = .idle) :
    Noted f c own tells since (b.send c' bf) w K := by
  have same : update b.senders c' ((b.senders c').step bf (b.filters c').bitmap).pc c =
      b.senders c :=
    update_of_ne ne.symm ..
  refine Noted.setBitmap_other ?_ ne
  refine { noted with tells := telling.send noted.tells filter _, sender := fun busy => ?_ }
  change update b.senders c' _ c ≠ _ at busy
  rw [same] at busy
  obtain ⟨le, progress⟩ := noted.sender busy
  refine ⟨le, fun bf' filter' => ?_⟩
  cases filter'
  show (update b.senders c' _ c).Progress _ _ _ _
  rw [same, Sender.words_step fun writes => busy (exclusive writes c ne.symm)]
  exact progress bf filter

/-- How many entries of each queue were inserted when the sender of a client began. -/
def Books.mind (b : Books σ) (since : Client → Client × Queue → Nat) :
    Event → Client → Client × Queue → Nat
  | .send c => if b.senders c = .idle then update since c b.inserted else since
  | _ => since

theorem Noted.step {since : Client → Client × Queue → Nat}
    (noted : Noted f c own tells (fun q => since c (c, q)) b w K) (telling : Telling H f room tells)
    (step : b.Step H cfg room b' e) (heedful : b.Heedful since e)
    (mine : ∀ c' cpuid n key page, e = .startPut c' cpuid n key page → key ∈ own → c' = c) :
    ∃ w' K', Noted f c own tells (fun q => b.mind since e c (c, q)) b' w' K' := by
  cases step with
  | @start c' cpuid n key page free eq =>
    subst eq
    refine ⟨w, K, noted.set ?_ ?_⟩
    · rintro _ _ ⟨⟩
      exact nofun
    · rintro other _ ⟨⟩ owned
      exact other (mine c' cpuid n key page rfl owned)
  | load here before eq =>
    subst eq
    refine ⟨w, K, noted.goesOn here fun _ shown => ?_⟩
    rwa [before] at shown
  | @loaded c' q n i call here before le eq =>
    subst eq
    refine ⟨w, K, noted.goesOn here fun same shown => ?_⟩
    obtain rfl : c' = c := same
    rw [before] at shown
    rw [noted.filter] at le
    exact shown.mono le
  | @mark c' q n i word call here before eq =>
    subst eq
    by_cases same : c' = c
    · subst same
      have keeps := heedful _ _ _ here before
      rw [noted.filter] at keeps ⊢
      exact ⟨_, K, noted.mark here before keeps⟩
    · exact ⟨w, K, (noted.goesOn here fun eq => absurd eq same).setBitmap_other same⟩
  | goes here before after eq =>
    subst eq
    refine ⟨w, K, noted.goesOn here fun _ shown => ?_⟩
    rw [PutPc.added_past before] at shown
    rwa [PutPc.added_past after]
  | @copy c' q n call pc here before after eq =>
    subst eq
    refine ⟨w, K, (noted.copy ?_ fun other => (noted.foreign _ other).1 n call here).goesOn here
      fun _ shown => ?_⟩
    · rintro rfl
      have shown := noted.calls _ _ _ here
      rwa [PutPc.added_past before] at shown
    · rw [PutPc.added_past before] at shown
      rwa [PutPc.added_past after]
  | ends here eq =>
    subst eq
    exact ⟨w, K, noted.set (fun _ => nofun) fun _ => nofun⟩
  | insert oldest fits inserts eq =>
    subst eq
    obtain ⟨K', noted'⟩ := noted.insert telling oldest fits inserts
    exact ⟨w, K', noted'⟩
  | @send c' bf filter eq =>
    subst eq
    obtain ⟨exclusive, sent⟩ := heedful bf filter
    unfold Books.mind
    dsimp only
    by_cases same : c' = c
    · subst same
      by_cases idle : b.senders c' = .idle
      · rw [if_pos idle, update_self]
        exact ⟨w, K, noted.begin telling filter idle⟩
      · rw [if_neg idle]
        rw [noted.filter] at sent
        exact ⟨_, K, noted.send pos small telling filter idle (fun j at_ => (sent j at_).1)
          fun j at_ => (sent j at_).2⟩
    · have kept : (if b.senders c' = .idle then update since c' b.inserted else since) c =
          since c := by
        split
        · exact update_of_ne (Ne.symm same) ..
        · rfl
      rw [kept]
      exact ⟨w, K, noted.send_other telling filter same exclusive⟩
  | still other eq =>
    subst eq
    have since_eq : b'.mind since e = since := by
      cases e with
      | send c => exact absurd rfl (other c)
      | _ => rfl
    rw [since_eq]
    exact ⟨w, K, noted⟩

end

end

section
variable {σ : Type} {H : IHash σ}

/-- No counter reaches 255 when the key is inserted. -/
def Unsaturated (kv : KV σ) (key : Key) : Prop :=
  ∀ bf, kv.bf = some bf → (bf.insert key).Unsaturated

end

/-- The remote store, and how many entries were inserted when the sender of a client began. -/
structure Notice (σ : Type) where
  sys : System σ
  since : Client → Client × Queue → Nat

namespace Notice

section
variable {σ : Type} (H : IHash σ) (cfg : Config)

def step (s : Notice σ) (e : Event) : Option (Notice σ) :=
  (s.sys.step H cfg e).map fun sys => ⟨sys, s.sys.books.mind s.since e⟩

def start (sys : System σ) : Notice σ := ⟨sys, fun _ _ => 0⟩

end

section
variable {σ : Type} {H : IHash σ} {cfg : Config} {f : BloomFilter} {room : KV σ → Key → Prop}
  {tells : KV σ → Set Key → Prop} {c : Client} {own : Set Key} {bufferSize globalMr : BitVec 64}
  {s t : Notice σ} {e : Event}

/-- The filter of client `c` in a state of the system. -/
def Inv (f : BloomFilter) (c : Client) (own : Set Key) (tells : KV σ → Set Key → Prop)
    (s : Notice σ) : Prop :=
  ∃ w K, Noted f c own tells (fun q => s.since c (c, q)) s.sys.books w K

theorem inv_start {nrHash bitmapSize : Nat} {kv : KV σ} (told : tells kv ∅) (c : Client)
    (own : Set Key) (mem : Nat → Memory.Byte) :
    (start (System.start bufferSize globalMr mem kv nrHash bitmapSize)).Inv
      ⟨nrHash, bitmapSize, fun _ => 0⟩ c own tells := by
  refine ⟨fun _ => 0, ∅, rfl, told, fun _ _ => ⟨nofun, nofun⟩, nofun, ?_, nofun,
    fun busy => absurd rfl busy⟩
  intro q n p _ put
  cases put

theorem Inv.step (inv : s.Inv f c own tells) (telling : Telling H f room tells)
    (pos : 0 < f.bitmapSize) (small : f.bitmapSize < 2 ^ 31) {sys : System σ}
    (moved : s.sys.step H cfg e = some sys) (sound : sys.Sound cfg bufferSize globalMr)
    (roomy : sys.server.Roomy) (spacious : s.sys.Spacious room e)
    (heedful : s.sys.books.Heedful s.since e)
    (mine : ∀ c' cpuid n key page, e = .startPut c' cpuid n key page → key ∈ own → c' = c) :
    (Notice.mk sys (s.sys.books.mind s.since e)).Inv f c own tells := by
  obtain ⟨w, K, noted⟩ := inv
  exact noted.step pos small telling (System.books_step sound roomy spacious moved) heedful mine

theorem Inv.check (inv : s.Inv f c own tells) (telling : Telling H f room tells) {key : Key}
    {value : Value} (mine : key ∈ own) (got : s.sys.kv.get H key = some value)
    (some : value ≠ noneValue) :
    (s.sys.filters c).check key = true := by
  obtain ⟨w, K, noted⟩ := inv
  rw [BloomFilter.check_iff_shows, show s.sys.filters c = { f with bitmap := w } from noted.filter]
  exact noted.held key (telling.found noted.tells got some) mine

end

section
variable {σ : Type} {H : IHash σ} {cfg : Config} {c : Client} {own : Set Key}
  {bufferSize globalMr : BitVec 64}
  {mem : Nat → Memory.Byte} {hash : σ} {holds : σ → Multiset Key → Prop} {numHashes : Fin 256}
  {numBits : Nat} {events : List Event} {t : Notice σ}

end

section
variable {σ : Type} {H : IHash σ} {cfg : Config}

def heeds (s : Notice σ) : Event → Bool
  | .put c q n =>
    match (s.sys.writeQs (c, q)).calls n with
    | some ⟨key, _, .mark i word⟩ =>
      (s.sys.filters c).bitmap ((s.sys.filters c).index key i / 64) == word
    | _ => true
  | .send _ => false
  | _ => true

def idles (s : Notice σ) : Event → Bool
  | .serveWrite c q =>
    match (s.sys.writeQs (c, q)).writer with
    | .inserting _ _ i => decide (batchSize ≤ i)
    | _ => true
  | _ => true

def quiet (s : Notice σ) (e : Event) : Bool := s.heeds e && s.idles e

end

def counting (numBits : Nat) : System (Key → Value) :=
  System.start (64 <<< 20) 4096 (fun _ => 0)
    ⟨fun _ => noneValue, some (CountingBloomFilter.new 4 numBits)⟩ 4 numBits

def view (s : Notice (Key → Value)) : Bool × BitVec 64 × BitVec 64 × Nat :=
  (s.sys.kv.get System.perfectMap 1 != some noneValue, s.sys.server.globalMr,
    s.sys.server.bufferSize, s.sys.server.pages.length)

theorem roomy_of_view {held : Bool} {pages : Nat} {s : Notice (Key → Value)}
    (eq : s.view = (held, 4096, 67108864, pages))
    (room : localMetaRegionSize + pageSize * pages ≤ 67108864) :
    (s.sys.kv.get System.perfectMap 1 != some noneValue) = held ∧ s.sys.server.Roomy := by
  unfold view at eq
  simp only [Prod.mk.injEq] at eq
  obtain ⟨held, start, size, length⟩ := eq
  exact ⟨held, Server.roomy_of_pages start size length room⟩

section
variable {numBits : Nat} {events : List Event} {s : Notice (Key → Value)}

end

section
variable {σ : Type} {H : IHash σ} {cfg : Config} {s : System σ} {c : Client}
  {bf : CountingBloomFilter}

/-- The system with the sender of a client at another place. -/
def placed (s : System σ) (c : Client) (bf : CountingBloomFilter) (next : Sender.Next) : System σ :=
  System.setBitmap { s with
    kv := ⟨s.kv.hash, some { bf with words := next.words }⟩
    senders := update s.senders c next.pc } c next.bitmap

end

def packed (numBits : Nat) : Notice (Key → Value) :=
  ⟨placed (counting numBits) 0 (.new 4 numBits)
    ⟨(CountingBloomFilter.new 4 numBits).toOrdinaryBloomFilter.words, fun _ => 0, .sending 0⟩,
      fun _ _ => 0⟩

end Notice

end Remote

end Xcache
