import Xcache.Filter.Client
import Xcache.Lib.Runs
import Xcache.Remote.Layout

/-! The filter pushes of several clients (`rdpma_bf_sender` and `send_bf` in
`server/rdma_svr.cpp`, `ToOrdinaryBloomFilter` in `server/util/counting_bloom_filter.h`): all
senders pack the one counting filter into its one array of words. -/

namespace Xcache.Remote
open Function
open Bitmap (mark marked marked_eq_testBit testBit_mark)
open Relation (ReflTransGen)

/-- Where a sender is: at a word of the first loop, at a counter of the second loop, between the
read and the write of a word there, or at a word of the transfer. -/
inductive Sender
  | idle
  | clearing (w : Nat)
  | testing (i : Nat)
  | storing (i word : Nat)
  | sending (w : Nat)
  deriving DecidableEq

namespace Sender

/-- The packed words, the bitmap of the client and the place of its sender. -/
structure Next where
  words : Nat → Nat
  bitmap : Nat → Nat
  pc : Sender

/-- One access of a sender to the filter, or to the bitmap of its client. -/
def step (bf : CountingBloomFilter) (bitmap : Nat → Nat) : Sender → Next
  | .idle => ⟨bf.words, bitmap, .clearing 0⟩
  | .clearing w =>
    if w < bf.numLongs then ⟨update bf.words w 0, bitmap, .clearing (w + 1)⟩
    else ⟨bf.words, bitmap, .testing 0⟩
  | .testing i =>
    if i < bf.numBits then
      if bf.counters i > 0 then ⟨bf.words, bitmap, .storing i (bf.words (i / 64))⟩
      else ⟨bf.words, bitmap, .testing (i + 1)⟩
    else ⟨bf.words, bitmap, .sending 0⟩
  | .storing i word =>
    ⟨update bf.words (i / 64) (word ||| 1 <<< (64 - 1 - i % 64)), bitmap, .testing (i + 1)⟩
  | .sending w =>
    if w < bf.numLongs then ⟨bf.words, update bitmap w (bf.words w), .sending (w + 1)⟩
    else ⟨bf.words, bitmap, .idle⟩

/-- The next access writes a packed word. -/
def Writes (bf : CountingBloomFilter) : Sender → Prop
  | .clearing w => w < bf.numLongs
  | .storing _ _ => True
  | _ => False

instance (bf : CountingBloomFilter) (pc : Sender) : Decidable (pc.Writes bf) :=
  match pc with
  | .clearing w => inferInstanceAs (Decidable (w < bf.numLongs))
  | .storing _ _ => isTrue trivial
  | .idle | .testing _ | .sending _ => isFalse not_false

theorem words_step {bf : CountingBloomFilter} {pc : Sender} (reads : ¬ pc.Writes bf)
    (bitmap : Nat → Nat) :
    (pc.step bf bitmap).words = bf.words := by
  cases pc with
  | idle => rfl
  | clearing w => rw [step, if_neg (show ¬ w < bf.numLongs from reads)]
  | testing i =>
    rw [step]
    split
    · split <;> rfl
    · rfl
  | storing i word => exact absurd trivial reads
  | sending w =>
    rw [step]
    split <;> rfl

/-- The bits below `n` that are due have been set. -/
def Covers (due : Nat → Prop) (words : Nat → Nat) (n : Nat) : Prop :=
  ∀ i < n, due i → marked words i = true

/-- What a sender has done so far. -/
def Progress (numBits : Nat) (words bitmap : Nat → Nat) (due : Nat → Prop) : Sender → Prop
  | .idle => Covers due bitmap numBits
  | .clearing _ => True
  | .testing i => Covers due words i ∧ i ≤ numBits
  | .storing i word => Covers due words i ∧ word = words (i / 64) ∧ i < numBits
  | .sending w =>
    Covers due words numBits ∧ ∀ i < numBits, i / 64 < w → due i → marked bitmap i = true

theorem marked_replaced (bitmap words : Nat → Nat) (j i : Nat) :
    marked (update bitmap j (words j)) i = if i / 64 =
      j then marked words i else marked bitmap i := by
  unfold marked
  by_cases here : i / 64 = j
  · rw [if_pos here, here, update_self]
  · rw [if_neg here, update_of_ne here]

theorem marked_mark (words : Nat → Nat) (i k : Nat) :
    marked (mark words i) k = (marked words k || decide (k = i)) := by
  rw [marked_eq_testBit, marked_eq_testBit, testBit_mark]
  congr 1
  rw [decide_eq_decide]
  constructor
  · rintro ⟨word, bit⟩
    exact Bitmap.index_ext word bit
  · rintro rfl
    exact ⟨rfl, rfl⟩

section
variable {bf : CountingBloomFilter} {words bitmap bitmap' : Nat → Nat} {due due' : Nat → Prop}
  {pc : Sender} {n : Nat}

theorem Covers.mark {i : Nat} (covers : Covers due words i) :
    Covers due (mark words i) (i + 1) := by
  intro k lt isDue
  rw [marked_mark, Bool.or_eq_true, decide_eq_true_iff]
  rcases Nat.lt_succ_iff_lt_or_eq.mp lt with less | eq
  · exact Or.inl (covers k less isDue)
  · exact Or.inr eq

theorem Progress.mono (old : pc.Progress n words bitmap due) (fewer : ∀ i, due' i → due i)
    (more : ∀ i, marked bitmap i = true → marked bitmap' i = true) :
    pc.Progress n words bitmap' due' := by
  have covers : ∀ {w m}, Covers due w m → Covers due' w m :=
    fun all i lt isDue => all i lt (fewer i isDue)
  cases pc with
  | idle => exact fun i lt isDue => more i (old i lt (fewer i isDue))
  | clearing w => trivial
  | testing i => exact ⟨covers old.1, old.2⟩
  | storing i word => exact ⟨covers old.1, old.2⟩
  | sending w =>
    exact ⟨covers old.1, fun i lt word isDue => more i (old.2 i lt word (fewer i isDue))⟩

/-- One access, while the counters that are due are positive and no other sender writes. -/
theorem Progress.step (old : pc.Progress bf.numBits bf.words bitmap due)
    (positive : ∀ i, due i → 0 < bf.counters i) :
    (pc.step bf bitmap).pc.Progress bf.numBits (pc.step bf bitmap).words (pc.step bf bitmap).bitmap
      due := by
  cases pc with
  | idle => trivial
  | clearing w =>
    simp only [Sender.step]
    split
    · trivial
    · exact ⟨fun i lt => absurd lt (Nat.not_lt_zero i), Nat.zero_le _⟩
  | testing i =>
    simp only [Sender.step]
    split
    · rename_i lt
      split
      · exact ⟨old.1, rfl, lt⟩
      · rename_i zero
        refine ⟨fun k less isDue => ?_, lt⟩
        rcases Nat.lt_succ_iff_lt_or_eq.mp less with before | rfl
        · exact old.1 k before isDue
        · exact absurd (positive k isDue) zero
    · rename_i ge
      have all : i = bf.numBits := le_antisymm old.2 (not_lt.mp ge)
      exact ⟨all ▸ old.1, fun k _ less => absurd less (Nat.not_lt_zero _)⟩
  | storing i word =>
    obtain ⟨covers, rfl, lt⟩ := old
    exact ⟨covers.mark, lt⟩
  | sending w =>
    simp only [Sender.step]
    split
    · refine ⟨old.1, fun i lt word isDue => ?_⟩
      rw [marked_replaced]
      split
      · exact old.1 i lt isDue
      · exact old.2 i lt (by omega) isDue
    · rename_i ge
      refine fun i lt isDue => old.2 i lt ?_ isDue
      have := bf.div_lt_numLongs lt
      omega

end

section
variable (bf : CountingBloomFilter)

/-- A sender that is in its push goes on, and no other one writes. -/
def Busy (a b : Next) : Prop := a.pc ≠ .idle ∧ b = a.pc.step { bf with words := a.words } a.bitmap

variable {bf} {words bitmap : Nat → Nat}

theorem clears (n : Nat) (le : n ≤ bf.numLongs) :
    ReflTransGen (Busy bf) ⟨words, bitmap, .clearing 0⟩
    ⟨(List.range n).foldl (fun w i => update w i 0) words, bitmap, .clearing n⟩ := by
  induction n with
  | zero => exact .refl
  | succ n ih =>
    refine (ih (by omega)).tail ⟨nofun, ?_⟩
    rw [List.range_succ, List.foldl_append]
    exact (if_pos le).symm

theorem tests (n : Nat) (le : n ≤ bf.numBits) : ReflTransGen (Busy bf) ⟨words, bitmap, .testing 0⟩
    ⟨(List.range n).foldl (fun w i => if bf.counters i > 0 then
      update w (i / 64) (w (i / 64) ||| 1 <<< (64 - 1 - i % 64)) else w) words, bitmap,
        .testing n⟩ := by
  induction n with
  | zero => exact .refl
  | succ n ih =>
    rw [List.range_succ, List.foldl_append, List.foldl_cons, List.foldl_nil]
    generalize (List.range n).foldl _ words = w at ih ⊢
    have before := ih (by omega)
    split
    · rename_i positive
      -- the word is read, then written
      refine (before.tail (b := ⟨w, bitmap, .testing n⟩) (c := ⟨w, bitmap, .storing n (w (n / 64))⟩)
        ⟨nofun, ?_⟩).tail ⟨nofun, rfl⟩
      exact ((if_pos le).trans (if_pos positive)).symm
    · rename_i zero
      exact before.tail ⟨nofun, ((if_pos le).trans (if_neg zero)).symm⟩

/-- A sender that nobody disturbs packs what `ToOrdinaryBloomFilter` computes. -/
theorem packs (bf : CountingBloomFilter) (bitmap : Nat → Nat) :
    ReflTransGen (Busy bf) ⟨bf.words, bitmap, .clearing 0⟩ ⟨bf.toOrdinaryBloomFilter.words, bitmap,
      .sending 0⟩ := by
  have first : Busy bf ⟨bf.cleared, bitmap, .clearing bf.numLongs⟩ ⟨bf.cleared, bitmap,
      .testing 0⟩ :=
    ⟨nofun, (if_neg (lt_irrefl bf.numLongs)).symm⟩
  have second : Busy bf ⟨bf.toOrdinaryBloomFilter.words, bitmap, .testing bf.numBits⟩
      ⟨bf.toOrdinaryBloomFilter.words, bitmap, .sending 0⟩ :=
    ⟨nofun, (if_neg (lt_irrefl bf.numBits)).symm⟩
  exact (((clears bf.numLongs le_rfl).tail first).trans (tests bf.numBits le_rfl)).tail second

/-- Its transfer replaces the first words of the bitmap. -/
theorem sends (bf : CountingBloomFilter) (words bitmap : Nat → Nat) :
    ReflTransGen (Busy bf) ⟨words, bitmap, .sending 0⟩
    ⟨words, fun j => if j < bf.numLongs then words j else bitmap j, .idle⟩ := by
  have loop : ∀ n ≤ bf.numLongs, ReflTransGen (Busy bf) ⟨words, bitmap, .sending 0⟩
      ⟨words, fun j => if j < n then words j else bitmap j, .sending n⟩ := by
    intro n le
    induction n with
    | zero => exact .refl
    | succ n ih =>
      refine (ih (by omega)).tail ⟨nofun, ?_⟩
      refine Eq.trans ?_ (if_pos le).symm
      congr 1
      funext j
      by_cases here : j = n
      · rw [here, update_self, if_pos (Nat.lt_succ_self n)]
      · rw [update_of_ne here]
        exact if_congr (by omega) rfl rfl
  exact (loop _ le_rfl).tail ⟨nofun, (if_neg (lt_irrefl bf.numLongs)).symm⟩

end

end Sender

structure Push where
  bf : CountingBloomFilter
  senders : Client → Sender
  bitmaps : Client → Nat → Nat
  /-- The counters that were positive before the last packing for this client. -/
  due : Client → Nat → Bool

namespace Push

def start (bf : CountingBloomFilter) (bitmaps : Client → Nat → Nat) : Push :=
  ⟨bf, fun _ => .idle, bitmaps, fun _ _ => false⟩

inductive Action
  | bump (idx : Nat)
  | send (c : Client)

def send (s : Push) (c : Client) : Push :=
  let next := (s.senders c).step s.bf (s.bitmaps c)
  { bf := { s.bf with words := next.words }
    senders := update s.senders c next.pc
    bitmaps := update s.bitmaps c next.bitmap
    due := if s.senders c = .idle then update s.due c fun i =>
      decide (0 < s.bf.counters i) else s.due }

/-- An insert counts up one counter after another. -/
def step (s : Push) : Action → Option Push
  | .bump idx =>
    some { s with bf := { s.bf with counters := CountingBloomFilter.bump s.bf.counters idx } }
  | .send c => some (s.send c)

/-- After a push the client has a bit for every counter that was positive before it. -/
def Complete (s : Push) : Prop :=
  ∀ c, s.senders c = .idle → ∀ i < s.bf.numBits, s.due c i = true → marked (s.bitmaps c) i = true

/-- A packed word is written only while all other senders sleep. -/
def Exclusive (s : Push) : Action → Prop
  | .send c => (s.senders c).Writes s.bf → ∀ c' ≠ c, s.senders c' = .idle
  | .bump _ => True

instance (s : Push) (a : Action) : Decidable (s.Exclusive a) :=
  match a with
  | .send c => inferInstanceAs (Decidable ((s.senders c).Writes s.bf →
    ∀ c' ≠ c, s.senders c' = .idle))
  | .bump _ => isTrue trivial

structure Sound (s : Push) : Prop where
  positive : ∀ c i, s.due c i = true → 0 < s.bf.counters i
  progress : ∀ c, (s.senders c).Progress s.bf.numBits s.bf.words (s.bitmaps c) fun i =>
    s.due c i = true

theorem bump_pos {c : Nat → Nat} {i : Nat} (pos : 0 < c i) (idx : Nat) :
    0 < CountingBloomFilter.bump c idx i := by
  unfold CountingBloomFilter.bump
  split
  · by_cases here : i = idx
    · rw [here, update_self]
      exact Nat.succ_pos _
    · rwa [update_of_ne here]
  · exact pos

theorem sound_start (bf : CountingBloomFilter) (bitmaps : Client → Nat → Nat) :
    (start bf bitmaps).Sound :=
  ⟨nofun, fun _ _ _ => nofun⟩

variable {s t : Push} {c : Client}

theorem send_senders (s : Push) (c : Client) :
    (s.send c).senders c = ((s.senders c).step s.bf (s.bitmaps c)).pc := update_self ..

theorem send_bitmaps (s : Push) (c : Client) :
    (s.send c).bitmaps c = ((s.senders c).step s.bf (s.bitmaps c)).bitmap := update_self ..

/-- What is due at the next place of a sender was due before, or its packing begins. -/
theorem due_send {i : Nat} (isDue : (s.send c).due c i = true) :
    s.senders c = .idle ∧ 0 < s.bf.counters i ∨ s.senders c ≠ .idle ∧ s.due c i = true := by
  unfold send at isDue
  dsimp only at isDue
  split at isDue
  · rename_i idle
    rw [update_self] at isDue
    exact Or.inl ⟨idle, of_decide_eq_true isDue⟩
  · rename_i busy
    exact Or.inr ⟨busy, isDue⟩

theorem due_send_other {c' : Client} (ne : c' ≠ c) : (s.send c).due c' = s.due c' := by
  unfold send
  dsimp only
  split
  · exact update_of_ne ne ..
  · rfl

theorem Sound.send (sound : s.Sound) (exclusive : s.Exclusive (.send c)) : (s.send c).Sound := by
  refine ⟨fun c' i isDue => ?_, fun c' => ?_⟩
  · by_cases same : c' = c
    · subst same
      rcases due_send isDue with ⟨_, pos⟩ | ⟨_, old⟩
      · exact pos
      · exact sound.positive c' i old
    · rw [due_send_other same] at isDue
      exact sound.positive c' i isDue
  · by_cases same : c' = c
    · subst same
      rw [send_senders, send_bitmaps]
      by_cases idle : s.senders c' = .idle
      · rw [idle]
        trivial
      · refine Sender.Progress.mono ((sound.progress c').step (sound.positive c'))
          (fun i isDue => ?_) fun _ set => set
        exact ((due_send isDue).resolve_left fun first => idle first.1).2
    · -- the others sleep, or the words stay
      have old := sound.progress c'
      rw [due_send_other same, show (s.send c).senders c' = s.senders c' from update_of_ne
        same .., show (s.send c).bitmaps c' = s.bitmaps c' from update_of_ne same ..]
      by_cases writes : (s.senders c).Writes s.bf
      · rw [exclusive writes c' same] at old ⊢
        exact old
      · rw [show (s.send c).bf.words = s.bf.words from Sender.words_step writes _]
        exact old

theorem Sound.step (sound : s.Sound) {a : Action} (exclusive : s.Exclusive a)
    (step : s.step a = some t) :
    t.Sound := by
  cases a with
  | bump idx =>
    cases step
    exact ⟨fun c i due => bump_pos (sound.positive c i due) idx, sound.progress⟩
  | send c =>
    cases step
    exact sound.send exclusive

/-- When the packed words are written only while the other senders sleep, every push delivers
all the bits that were due before it. -/
theorem pushes_complete (bf : CountingBloomFilter) (bitmaps : Client → Nat → Nat)
    {actions : List Action}
    (exclusive : Runs.Meets Push.step Exclusive (start bf bitmaps) actions) :
    Runs.Always Push.step Complete (start bf bitmaps) actions := by
  refine Runs.always_of_meets (sound_start bf bitmaps) (fun s a t sound => sound.step) ?_ exclusive
  intro s sound c idle
  have done := sound.progress c
  rw [idle] at done
  exact done

/-- Two pushes of a filter of 64 bits, with an insert between them. -/
def twoPushes : List Action :=
  .bump 3 :: List.replicate 71 (.send 0) ++ .bump 5 :: List.replicate 72 (.send 1)

theorem pushes_complete_two :
    ∃ t, Runs.run Push.step (start (.new 4 64) fun _ _ => 0) twoPushes = some t ∧
    (t.senders 0 = .idle ∧ t.due 0 3 = true ∧ marked (t.bitmaps 0) 3 = true) ∧
    t.senders 1 = .idle ∧ t.due 1 5 = true ∧ marked (t.bitmaps 1) 5 = true := by
  have seen : (Runs.run Push.step (start (.new 4 64) fun _ _ => 0) twoPushes).map (fun t =>
      (t.senders 0, t.due 0 3, t.senders 1, t.due 1 5, t.bf.numBits)) =
        some (.idle, true, .idle, true, 64) := by
    decide +kernel
  have exclusive : Runs.Meets Push.step Exclusive (start (.new 4 64) fun _ _ => 0) twoPushes :=
    Runs.meets_of_checks (fun s a (met : decide (s.Exclusive a) = true) => of_decide_eq_true met)
      (by decide +kernel)
  obtain ⟨t, final, eq⟩ := Option.map_eq_some_iff.mp seen
  simp only [Prod.mk.injEq] at eq
  obtain ⟨idle, due, idle', due', bits⟩ := eq
  have complete := pushes_complete _ _ exclusive _ t (List.prefix_refl _) final
  exact ⟨t, final, ⟨idle, due, complete 0 idle 3 (by rw [bits]; decide) due⟩, idle', due',
    complete 1 idle' 5 (by rw [bits]; decide) due'⟩

def at_ (s : Push) (c : Client) (next : Sender.Next) : Push :=
  { s with
    bf := { s.bf with words := next.words }
    senders := update s.senders c next.pc
    bitmaps := update s.bitmaps c next.bitmap }

theorem at_self (s : Push) (c : Client) : s.at_ c ⟨s.bf.words, s.bitmaps c, s.senders c⟩ = s := by
  unfold at_
  rw [update_eq_self, update_eq_self]

theorem reaches_of_busy {a b : Sender.Next} (run : ReflTransGen (Sender.Busy s.bf) a b) :
    Runs.Reaches Push.step (s.at_ c a) (s.at_ c b) := by
  induction run with
  | refl => exact .refl _
  | @tail a b _ busy ih =>
    have pc : (s.at_ c a).senders c = a.pc := update_self ..
    have bitmap : (s.at_ c a).bitmaps c = a.bitmap := update_self ..
    have moves : (s.at_ c a).step (.send c) = some (s.at_ c b) := by
      rw [Push.step, send, pc, bitmap, if_neg busy.1, busy.2]
      unfold at_
      dsimp only
      rw [update_idem, update_idem]
    exact ih.trans (.head moves (.refl _))

theorem overlap_incomplete (numHashes : Fin 256) {numBits : Nat} (pos : 0 < numBits) :
    ∃ t, Runs.Reaches Push.step (start (.new numHashes numBits) fun _ _ => 0) t ∧ ¬ t.Complete := by
  -- the first sender packs the filter
  let s₁ : Push := { start (.new numHashes numBits) fun _ _ => 0 with
    bf := { CountingBloomFilter.new numHashes numBits with
      counters := CountingBloomFilter.bump (fun _ => 0) 0 } }
  let s₂ := s₁.send 0
  let s₃ := s₂.at_ 0 ⟨s₂.bf.toOrdinaryBloomFilter.words, s₂.bitmaps 0, .sending 0⟩
  have begins : Runs.Reaches Push.step (start (.new numHashes numBits) fun _ _ => 0) s₂ :=
    .head (e := .bump 0) rfl (.head (e := .send 0) rfl (.refl _))
  have packs : Runs.Reaches Push.step s₂ s₃ := by
    have run := reaches_of_busy (s := s₂) (c := 0) (Sender.packs s₂.bf (s₂.bitmaps 0))
    rwa [show Sender.clearing 0 = s₂.senders 0 from rfl, at_self] at run
  -- the second begins to clear the words
  let s₄ := (s₃.send 1).send 1
  have clears : Runs.Reaches Push.step s₃ s₄ :=
    .head (e := .send 1) rfl (.head (e := .send 1) rfl (.refl _))
  have longs : 0 < s₃.bf.numLongs := by
    show 0 < (numBits + 63) / 64
    omega
  have word : s₄.bf.words 0 = 0 := by
    show ((Sender.clearing 0).step s₃.bf (s₃.bitmaps 1)).words 0 = 0
    rw [Sender.step, if_pos longs]
    exact update_self 0 0 s₃.bf.words
  have sending : s₄.senders 0 = .sending 0 := rfl
  -- the first transfers them
  let t := s₄.at_ 0 ⟨s₄.bf.words, fun j => if j < s₄.bf.numLongs then s₄.bf.words j else s₄.bitmaps
    0 j, .idle⟩
  have transfers : Runs.Reaches Push.step s₄ t := by
    have run := reaches_of_busy (s := s₄) (c := 0) (Sender.sends s₄.bf s₄.bf.words (s₄.bitmaps 0))
    rwa [← sending, at_self] at run
  refine ⟨t, ((begins.trans packs).trans clears).trans transfers, fun complete => ?_⟩
  have idle : t.senders 0 = .idle := update_self 0 _ s₄.senders
  have bit := complete 0 idle 0 pos rfl
  have first : t.bitmaps 0 0 = 0 := by
    show update s₄.bitmaps 0 _ 0 0 = 0
    rw [update_self]
    exact (if_pos longs).trans word
  rw [marked, Nat.zero_div, first, Nat.zero_and] at bit
  cases bit

/-- The filter of the server: the packed words and the sizes of `rdma_svr.h`. -/
theorem overlapping_push_incomplete :
    ∃ t, Runs.Reaches Push.step (start (.new 4 1000000000) fun _ _ => 0) t ∧ ¬ t.Complete :=
  overlap_incomplete 4 (by decide)

end Push

end Xcache.Remote
