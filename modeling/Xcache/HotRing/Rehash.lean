import Xcache.HotRing.Lookup

/-! `hotring_rehash`. The milestones are the heads of the new buckets, so the lookups that should
give the tails of the rings give `NULL`, and the first cut of a ring writes through it. -/

namespace Xcache.HotRing

section
variable {mem mem' : Mem} {h h' new : Hash} {log : List (BitVec 64 × BitVec 64)} {key : BitVec 64}
  {i k : Nat}

theorem toNat_shiftIndex {i bits : Nat} (small : i * 2 ^ bits < 2 ^ 31) :
    (shiftIndex i bits).toNat = i * 2 ^ bits := by
  unfold shiftIndex
  have low : (BitVec.ofNat 32 i <<< bits).toNat = i * 2 ^ bits := by
    rw [BitVec.toNat_shiftLeft, BitVec.toNat_ofNat, Nat.shiftLeft_eq, Nat.mod_mul_mod]
    omega
  have sign : (BitVec.ofNat 32 i <<< bits).msb = false := by
    rw [BitVec.msb_eq_decide, low]
    exact decide_eq_false (by omega)
  rw [BitVec.signExtend_eq_setWidth_of_msb_false sign, BitVec.toNat_setWidth, low]
  omega

theorem toNat_halfTag (bits : Nat) (lt : bits < 64) : (1#64 <<< bits).toNat = 2 ^ bits := by
  rw [BitVec.toNat_shiftLeft, BitVec.toNat_ofNat, Nat.shiftLeft_eq]
  simpa using Nat.pow_lt_pow_right (by decide) lt

theorem hashCode_parts (h : Hash) (key : BitVec 64) (i tag : Nat) (n_eq : h.n = 10) (lt : h.k < 10)
    (small : tag < 2 ^ (10 - h.k)) (eq : key.toNat % 2 ^ 10 = i * 2 ^ (10 - h.k) + tag) :
    hashCode h key = some (i, BitVec.ofNat 64 tag) := by
  obtain ⟨i', tag', code, _, parts, below⟩ :=
    hashCode_spec (h := h) ⟨by omega, by omega, by omega⟩ (by omega) key
  have range : h.range = 2 ^ (10 - h.k) := by
    rw [Hash.range, n_eq]
    exact toNat_int_shift (by omega)
  rw [n_eq, eq, range, Nat.mul_comm] at parts
  rw [range] at below
  have quotient : i = i' := by
    have left := Nat.mul_add_div (Nat.two_pow_pos (10 - h.k)) i tag
    have right := Nat.mul_add_div (Nat.two_pow_pos (10 - h.k)) i' tag'.toNat
    rw [Nat.div_eq_of_lt small] at left
    rw [Nat.div_eq_of_lt below, ← parts] at right
    omega
  subst quotient
  have same : tag' = BitVec.ofNat 64 tag := by
    rw [Nat.add_left_cancel parts, BitVec.ofNat_toNat, BitVec.setWidth_eq]
  rw [code, same]

/-- The key of the milestone in the middle of bucket `i` of a table with `k` index bits. -/
def halfKey (k i : Nat) : BitVec 64 := shiftIndex i (10 - k) + 1#64 <<< (10 - k - 1)

section
variable (pos : 1 ≤ k) (lt : k + 1 < 10)
include pos lt

theorem toNat_shiftIndex_of_lt (index : i < 2 ^ (k + 1)) :
    (shiftIndex i (10 - k)).toNat = i * 2 ^ (10 - k) := by
  refine toNat_shiftIndex ?_
  have : i * 2 ^ (10 - k) < 2 ^ (k + 1) * 2 ^ (10 - k) :=
    Nat.mul_lt_mul_of_pos_right index (Nat.two_pow_pos _)
  rw [← Nat.pow_add, show k + 1 + (10 - k) = 11 by omega] at this
  omega

theorem toNat_halfKey (index : i < 2 ^ (k + 1)) :
    (halfKey k i).toNat = i * 2 ^ (10 - k) + 2 ^ (10 - k - 1) := by
  have low := toNat_shiftIndex_of_lt pos lt index
  have half := toNat_halfTag (10 - k - 1) (by omega)
  have : i * 2 ^ (10 - k) < 2 ^ (k + 1) * 2 ^ (10 - k) :=
    Nat.mul_lt_mul_of_pos_right index (Nat.two_pow_pos _)
  rw [← Nat.pow_add, show k + 1 + (10 - k) = 11 by omega] at this
  have := Nat.pow_lt_pow_right (a := 2) (by decide) (show 10 - k - 1 < 10 by omega)
  unfold halfKey
  rw [BitVec.toNat_add_of_lt (by omega), low, half]

theorem hashCode_old (n_eq : h.n = 10) (k_eq : h.k = k) (index : i < 2 ^ k) :
    hashCode h (halfKey k i) = some (i, 1#64 <<< (10 - k - 1)) ∧
      hashCode h (shiftIndex i (10 - k)) = some (i, 0) := by
  have wide : 2 ^ k ≤ 2 ^ (k + 1) := Nat.pow_le_pow_right (by decide) (Nat.le_succ k)
  have half : 2 ^ (10 - k) = 2 * 2 ^ (10 - k - 1) := by
    rw [← Nat.pow_succ', show (10 - k - 1).succ = 10 - k by omega]
  have top : (i + 1) * 2 ^ (10 - k) ≤ 2 ^ 10 := by
    have := Nat.mul_le_mul_right (2 ^ (10 - k)) index
    rwa [← Nat.pow_add, show k + (10 - k) = 10 by omega] at this
  rw [Nat.add_mul, Nat.one_mul] at top
  have low := Nat.two_pow_pos (10 - k - 1)
  subst k_eq
  constructor
  · have code :=
      hashCode_parts h (halfKey h.k i) i (2 ^ (10 - h.k - 1)) n_eq (by omega) (by omega) ?_
    · rw [code]
      refine congrArg (fun tag => some (i, tag)) (BitVec.eq_of_toNat_eq ?_)
      have := Nat.pow_lt_pow_right (a := 2) (by decide) (show 10 - h.k - 1 < 64 by omega)
      rw [toNat_halfTag _ (by omega), BitVec.toNat_ofNat, Nat.mod_eq_of_lt this]
    · rw [toNat_halfKey pos lt (index.trans_le wide)]
      exact Nat.mod_eq_of_lt (by omega)
  · refine hashCode_parts h _ i 0 n_eq (by omega) (Nat.two_pow_pos _) ?_
    rw [toNat_shiftIndex_of_lt pos lt (index.trans_le wide)]
    exact Nat.mod_eq_of_lt (by omega)

theorem hashCode_new (n_eq : h.n = 10) (k_eq : h.k = k + 1) (index : i < 2 ^ (k + 1)) :
    ∃ tag, hashCode h (halfKey k i) = some (2 * (i % 2 ^ k) + 1, tag) := by
  refine ⟨_, hashCode_parts h _ _ 0 n_eq (by omega) (Nat.two_pow_pos _) ?_⟩
  have split := Nat.div_add_mod i (2 ^ k)
  have rest := Nat.mod_lt i (Nat.two_pow_pos k)
  rw [toNat_halfKey pos lt index, k_eq]
  generalize i / 2 ^ k = q at split
  generalize i % 2 ^ k = r at split rest ⊢
  have half : 2 ^ (10 - k) = 2 * 2 ^ (10 - k - 1) := by
    rw [← Nat.pow_succ', show (10 - k - 1).succ = 10 - k by omega]
  have top : (r + 1) * 2 ^ (10 - k) ≤ 2 ^ 10 := by
    have := Nat.mul_le_mul_right (2 ^ (10 - k)) rest
    rwa [← Nat.pow_add, show k + (10 - k) = 10 by omega] at this
  have whole : i * 2 ^ (10 - k) = 2 ^ 10 * q + r * 2 ^ (10 - k) := by
    rw [← split, Nat.add_mul, Nat.mul_right_comm, ← Nat.pow_add, show k + (10 - k) = 10 by omega]
  have value : (2 * r + 1) * 2 ^ (10 - k - 1) = r * 2 ^ (10 - k) + 2 ^ (10 - k - 1) := by
    rw [half]
    ring
  rw [whole, Nat.add_assoc, Nat.mul_add_mod, Nat.add_zero,
    show 10 - (k + 1) = 10 - k - 1 by omega, value]
  rw [Nat.add_mul, Nat.one_mul] at top
  have := Nat.two_pow_pos (10 - k - 1)
  exact Nat.mod_eq_of_lt (by omega)

omit pos lt in
/-- A loop over `0, ..., m - 1` whose turns return and keep an invariant. -/
theorem foldlM_range {σ : Type} {f : σ → Nat → Option σ} {P : Nat → σ → Prop} {m : Nat} {s : σ}
    (start : P 0 s) (turn : ∀ i < m, ∀ s, P i s → ∃ s', f s i = some s' ∧ P (i + 1) s') :
    ∃ s', (List.range m).foldlM f s = some s' ∧ P m s' := by
  induction m with
  | zero => exact ⟨s, rfl, start⟩
  | succ m ih =>
    obtain ⟨s₁, run, inv⟩ := ih fun i less => turn i (less.trans (Nat.lt_succ_self m))
    obtain ⟨s', step, inv'⟩ := turn m (Nat.lt_succ_self m) s₁ inv
    refine ⟨s', ?_, inv'⟩
    rw [List.range_succ, List.foldlM_append, run]
    change (f s₁ m).bind _ = some s'
    rw [step]
    rfl

/-- What `hotring_rehash_init` has done after `i` buckets: the two new slots of a bucket that is not
empty have milestones as their heads. -/
structure Seeded (k : Nat) (h : Hash) (i : Nat) (s : Mem × Hash × Hash) : Prop where
  inv : ∃ log, Inv s.1 s.2.1 log
  old : s.2.1 = h
  new : s.2.2.n = 10 ∧ s.2.2.k = k + 1 ∧ s.2.2.size = 2 ^ (k + 1)
  empty : ∀ j, (j < i → h.slots j = none) → s.2.2.slots (2 * j) = none ∧
    s.2.2.slots (2 * j + 1) = none
  seeded : ∀ j < i, h.slots j ≠ none → s.2.2.slots (2 * j) ≠ none ∧
    ∃ hd node, s.2.2.slots (2 * j + 1) = some hd ∧ s.1.nodes hd.node = some node ∧
      node.key = halfKey k j

omit pos lt in
theorem milestone_spec {tag : BitVec 64} (slot : Nat) (inv : Inv mem h log)
    (code : hashCode h key = some (i, tag)) (less : i < h.size) (full : h.slots i ≠ none)
    (room : slot < new.size) :
    ∃ mem' node, milestone mem h new i key tag slot =
      some (mem', h, new.setSlot slot (some ⟨mem.fresh, 0⟩)) ∧
      Inv mem' h ((key, 0) :: log) ∧ mem'.KeepsKeys mem ∧ mem'.nodes mem.fresh = some node ∧
        node.key = key := by
  obtain ⟨mem₁, h', mem', created, entered, inv', _, same, keeps, node, at_, keyEq⟩ :=
    inv.create 0 code less
  rw [same full] at created inv'
  refine ⟨mem', node, ?_, inv', keeps, at_, keyEq⟩
  unfold milestone
  rw [created]
  dsimp only [bind, Option.bind]
  rw [entered]
  dsimp only
  rw [if_pos room]
  rfl

theorem Seeded.turn {s : Mem × Hash × Hash} (n_eq : h.n = 10) (k_eq : h.k = k)
    (size : h.size = 2 ^ k) (index : i < 2 ^ k) (seeded : Seeded k h i s) :
    ∃ s', milestones (10 - k) s i = some s' ∧ Seeded k h (i + 1) s' := by
  obtain ⟨mem, h₁, new⟩ := s
  obtain ⟨⟨log, inv⟩, rfl, ⟨newN, newK, newSize⟩, empty, heads⟩ := seeded
  unfold milestones
  dsimp only at *
  cases slot : h₁.slots i with
  | none =>
    refine ⟨_, rfl, ⟨log, inv⟩, rfl, ⟨newN, newK, newSize⟩, fun j none => empty j fun less =>
      none (less.trans (Nat.lt_succ_self i)),
      fun j less full => heads j ?_ full⟩
    refine lt_of_le_of_ne (Nat.lt_succ_iff.mp less) ?_
    rintro rfl
    exact full slot
  | some hd =>
    have full : h₁.slots i ≠ none := by
      rw [slot]
      exact Option.some_ne_none _
    obtain ⟨codeHalf, codeZero⟩ := hashCode_old pos lt n_eq k_eq index
    have room : 2 ^ (k + 1) = 2 * 2 ^ k := Nat.pow_succ' ..
    obtain ⟨mem₁, nodeHalf, done₁, inv₁, keeps₁, atHalf, keyHalf⟩ :=
      milestone_spec (i * 2 + 1) inv codeHalf
      (by rwa [size]) full (show i * 2 + 1 < new.size by omega)
    obtain ⟨mem₂, nodeZero, done₂, inv₂, keeps₂, atZero, keyZero⟩ :=
      milestone_spec (i * 2) inv₁ codeZero
      (by rwa [size]) full (show i * 2 < (new.setSlot (i * 2 + 1)
        (some ⟨mem.fresh, 0⟩)).size by exact (by omega : i * 2 < new.size))
    have untouched : ∀ j, j ≠ i →
        ((new.setSlot (i * 2 + 1) (some ⟨mem.fresh, 0⟩)).setSlot (i * 2)
          (some ⟨mem₁.fresh, 0⟩)).slots (2 * j) = new.slots (2 * j) ∧
        ((new.setSlot (i * 2 + 1) (some ⟨mem.fresh, 0⟩)).setSlot (i * 2)
          (some ⟨mem₁.fresh, 0⟩)).slots (2 * j + 1) = new.slots (2 * j + 1) := by
      intro j ne
      constructor <;> exact (Function.update_of_ne (by omega) _ _).trans
        (Function.update_of_ne (by omega) _ _)
    refine ⟨_, (congrArg (Option.bind · _) done₁).trans done₂, ⟨_, inv₂⟩, rfl,
      ⟨newN, newK, newSize⟩, fun j none => ?_, fun j less fullJ => ?_⟩
    · have ne : j ≠ i := by
        rintro rfl
        exact full (none (Nat.lt_succ_self j))
      rw [untouched j ne |>.1, untouched j ne |>.2]
      exact empty j fun less => none (less.trans (Nat.lt_succ_self i))
    · by_cases here : j = i
      · subst here
        obtain ⟨node', at', key'⟩ := keeps₂ _ _ atHalf
        refine ⟨?_, ⟨mem.fresh, 0⟩, node', ?_, at', key'.trans keyHalf⟩
        · rw [Nat.mul_comm 2 j]
          exact fun none => Option.some_ne_none
            _ ((Function.update_self (j * 2) _ _).symm.trans none)
        · rw [Nat.mul_comm 2 j]
          exact (Function.update_of_ne (by omega) _ _).trans (Function.update_self ..)
      · obtain ⟨first, hd, node, slotJ, at_, keyEq⟩ :=
          heads j (lt_of_le_of_ne (Nat.lt_succ_iff.mp less) here) fullJ
        obtain ⟨node₁, at₁, key₁⟩ := keeps₁ _ _ at_
        obtain ⟨node₂, at₂, key₂⟩ := keeps₂ _ _ at₁
        rw [untouched j here |>.1, untouched j here |>.2]
        exact ⟨first, hd, node₂, slotJ, at₂, key₂.trans (key₁.trans keyEq)⟩

/-- `hotring_rehash_init` returns. -/
theorem hotringRehashInit_spec (inv : Inv mem h log) (n_eq : h.n = 10) (k_eq : h.k = k)
    (size : h.size = 2 ^ k) :
    ∃ s, hotringRehashInit mem h = some s ∧ Seeded k h (2 ^ k) s := by
  have start : Seeded k h 0 (mem, h, ⟨10, k + 1, 1 <<< (k + 1), fun _ => none⟩) :=
    ⟨⟨log, inv⟩, rfl, ⟨rfl, rfl, by rw [Nat.shiftLeft_eq, Nat.one_mul]⟩, fun _ _ => ⟨rfl, rfl⟩,
      fun j less => absurd less (Nat.not_lt_zero j)⟩
  obtain ⟨s, run, seeded⟩ :=
    foldlM_range start fun i index s => Seeded.turn pos lt n_eq k_eq size index
  refine ⟨s, ?_, seeded⟩
  unfold hotringRehashInit hotringAlloc
  rw [k_eq, if_pos (by omega), n_eq, size]
  exact run

end

/-- The heads after a lookup are the heads before it. -/
theorem hotringGet_slots {r : GetResult} (got : hotringGet mem h key = some (mem', h', r)) :
    h'.n = h.n ∧ h'.k = h.k ∧ ∀ j hd', h'.slots j = some hd' → ∃ hd, h.slots j = some hd ∧
      hd.node = hd'.node := by
  obtain ⟨i, tag, _, _, ⟨_, rfl, _⟩ | ⟨hd, counter, _, slot, rfl, _⟩⟩ := hotringGet_cases got
  · exact ⟨rfl, rfl, fun j hd' here => ⟨hd', here, rfl⟩⟩
  · refine ⟨rfl, rfl, fun j hd' here => ?_⟩
    by_cases same : j = i
    · subst same
      cases (Function.update_self j _ _).symm.trans here
      exact ⟨hd, slot, rfl⟩
    · exact ⟨hd', (Function.update_of_ne same _ _).symm.trans here, rfl⟩

theorem cutRing_eq_none {s : Mem × Hash × Hash} (pos : 1 ≤ k) (lt : k + 1 < 10)
    (seeded : Seeded k h (2 ^ k) s) (index : i < 2 ^ (k + 1)) (used : s.2.2.slots i ≠ none)
    (first : ∀ j < i, s.2.2.slots j = none) :
    cutRing (10 - k) ⟨s.1, s.2.2, none, none⟩ i = none := by
  obtain ⟨mem, h₁, new⟩ := s
  obtain ⟨_, rfl, ⟨newN, newK, _⟩, empty, heads⟩ := seeded
  dsimp only at *
  obtain ⟨hd, slot⟩ := Option.ne_none_iff_exists'.mp used
  rw [Option.eq_none_iff_forall_ne_some]
  intro cut returned
  unfold cutRing at returned
  dsimp only at returned
  rw [slot] at returned
  obtain ⟨⟨mem₁, new₁, r₁⟩, got₁, returned⟩ := Option.bind_eq_some_iff.mp returned
  obtain ⟨⟨mem₂, new₂, r₂⟩, got₂, returned⟩ := Option.bind_eq_some_iff.mp returned
  obtain ⟨tail, isTail, _⟩ := Option.bind_eq_some_iff.mp returned
  obtain ⟨n₁, k₁, back⟩ := hotringGet_slots got₁
  obtain ⟨_, _, _, recounts, _⟩ := hotringGet_cases got₁
  have keeps := recounts.keepsKeys
  obtain ⟨tag, code⟩ := hashCode_new (h := new₁) pos lt (n₁.trans newN) (k₁.trans newK) index
  obtain ⟨i', tag', code', _, ⟨_, _, none⟩ | ⟨hd₁, _, node₁, slot₁, _, at₁, none⟩⟩ :=
    hotringGet_cases got₂
  · rw [none] at isTail
    cases isTail
  · cases code.symm.trans code'
    obtain ⟨hd₀, slot₀, same⟩ := back _ _ slot₁
    have full : h₁.slots (i % 2 ^ k) ≠ Option.none := by
      intro slotOld
      rw [(empty (i % 2 ^ k) fun _ => slotOld).2] at slot₀
      cases slot₀
    obtain ⟨even, hdJ, nodeJ, slotJ, atJ, keyJ⟩ := heads _ (Nat.mod_lt i (Nat.two_pow_pos k)) full
    have low : i % 2 ^ k = i := by
      -- otherwise the even slot of that bucket comes before `i`
      refine Nat.mod_eq_of_lt (Nat.lt_of_not_le fun ge => even (first _ ?_))
      have room : 2 ^ (k + 1) = 2 * 2 ^ k := Nat.pow_succ' ..
      rw [Nat.mod_eq_sub_mod ge, Nat.mod_eq_of_lt (by omega)]
      omega
    rw [low] at keyJ
    cases slot₀.symm.trans slotJ
    obtain ⟨node', at', key'⟩ := keeps _ _ atJ
    rw [same] at at'
    cases at₁.symm.trans at'
    rw [none (key'.trans keyJ)] at isTail
    cases isTail

theorem foldlM_range_same {σ : Type} {f : σ → Nat → Option σ} {m : Nat} {s : σ}
    (same : ∀ j < m, f s j = some s) :
    (List.range m).foldlM f s = some s := by
  obtain ⟨s', run, rfl⟩ :=
    foldlM_range (P := fun _ t => t = s) (f := f) rfl fun j less t eq => ⟨s, eq ▸ same j less, rfl⟩
  exact run

/-- A loop whose turns do nothing before one that does not return. -/
theorem foldlM_range_none {σ : Type} {f : σ → Nat → Option σ} {m : Nat} {s : σ} (index : i < m)
    (before : ∀ j < i, f s j = some s) (stuck : f s i = none) :
    (List.range m).foldlM f s = none := by
  induction m with
  | zero => exact absurd index (Nat.not_lt_zero i)
  | succ m ih =>
    rw [List.range_succ, List.foldlM_append]
    rcases Nat.lt_succ_iff_lt_or_eq.mp index with less | rfl
    · rw [ih less]
      rfl
    · rw [foldlM_range_same before]
      change (f s i).bind _ = none
      rw [stuck]
      rfl

/-- With a key in the table, `hotring_rehash` does not return. -/
theorem hotringRehash_eq_none (pos : 1 ≤ k) (lt : k + 1 < 10) (inv : Inv mem h log)
    (n_eq : h.n = 10) (k_eq : h.k = k) (size : h.size = 2 ^ k) (index : i < 2 ^ k)
    (used : h.slots i ≠ none) : hotringRehash mem h = none := by
  obtain ⟨⟨mem₁, h₁, new⟩, init, seeded⟩ := hotringRehashInit_spec pos lt inv n_eq k_eq size
  have some : ∃ j, new.slots j ≠ none := ⟨2 * i, (seeded.seeded i index used).1⟩
  have least := Nat.find_spec some
  have within : Nat.find some < 2 ^ (k + 1) := by
    have := Nat.find_min' some (seeded.seeded i index used).1
    have room : 2 ^ (k + 1) = 2 * 2 ^ k := Nat.pow_succ' ..
    omega
  have first : ∀ j < Nat.find some, new.slots j = none :=
    fun j less => not_not.mp (Nat.find_min some less)
  have stuck :=
    foldlM_range_none (m := 2 ^ (k + 1)) (f := cutRing (10 - k)) (s := ⟨mem₁, new, none, none⟩)
      within
    (fun j less => by rw [cutRing, first j less]) (cutRing_eq_none pos lt seeded within least first)
  have old : h₁ = h := seeded.old
  have newSize : new.size = 2 ^ (k + 1) := seeded.new.2.2
  unfold hotringRehash
  rw [init]
  change ((List.range new.size).foldlM (cutRing (h₁.n - h₁.k)) ⟨mem₁, new, none, none⟩).bind _ =
    none
  rw [newSize, old, n_eq, k_eq, stuck]
  rfl

theorem hotringRehash_empty (lt : k + 1 < 10) (k_eq : h.k = k) (empty : ∀ i, h.slots i = none) :
    hotringRehash mem h = some (mem, ⟨10, k + 1, 1 <<< (k + 1), fun _ => none⟩) := by
  have init : hotringRehashInit mem h = some (mem, h,
      ⟨10, k + 1, 1 <<< (k + 1), fun _ => none⟩) := by
    unfold hotringRehashInit hotringAlloc
    rw [k_eq, if_pos (by omega)]
    exact foldlM_range_same fun j _ => by rw [milestones, empty j]
  unfold hotringRehash
  rw [init]
  dsimp only [bind, Option.bind]
  rw [foldlM_range_same fun j _ => rfl]
  exact foldlM_range_same fun j _ => rfl

end

/-- `hotring_rehash` returns a table of twice the size with all keys and no others exactly when no
key has been inserted. -/
theorem hotringRehash_iff_empty (k : Nat) (pos : 1 ≤ k) (lt : k + 1 < nbits) (ops : List Op) :
    ∃ s, run nbits k ops = some s ∧
      ((∃ s', hotringRehash s.1 s.2 = some s' ∧ s'.2.size = 2 ^ (k + 1) ∧
        AllFound s' (inserted ops [])) ↔ inserted ops [] = []) := by
  have lt : k + 1 < 10 := lt
  have defined : Defined nbits k := ⟨by decide, by unfold nbits; omega, by omega⟩
  obtain ⟨s, ran, inv, n_eq, k_eq, size⟩ := sound_run defined (by unfold nbits; omega) ops
  refine ⟨s, ran, ⟨fun ⟨s', returned, _⟩ => ?_, fun none => ?_⟩⟩
  · by_contra some
    obtain ⟨e, mem_⟩ := List.exists_mem_of_ne_nil _ some
    obtain ⟨i, tag, code, index, _⟩ :=
      hashCode_spec (h := s.2) (by rwa [n_eq, k_eq]) (by rw [n_eq, k_eq]; unfold nbits; omega) e.1
    have used : s.2.slots i ≠ none := by
      rcases inv.slots i with ⟨_, none⟩ | ⟨ring, good⟩
      · have : e ∈ entries s.2 (inserted ops []) i := List.mem_filter.mpr ⟨mem_, by rw [code]; simp⟩
        rw [none] at this
        cases this
      · obtain ⟨hd, _, slot, _⟩ := good.bucket
        rw [slot]
        exact Option.some_ne_none _
    rw [k_eq] at index
    rw [hotringRehash_eq_none pos lt inv n_eq k_eq size index used] at returned
    cases returned
  · rw [none] at inv ⊢
    have empty : ∀ i, s.2.slots i = Option.none := by
      intro i
      rcases inv.slots i with ⟨slot, _⟩ | ⟨ring, good⟩
      · exact slot
      · obtain ⟨hd, rest, _, rfl, _⟩ := good.bucket
        exact absurd good.contents.eq_nil (by simp)
    refine ⟨_, hotringRehash_empty lt k_eq empty, by rw [Nat.shiftLeft_eq, Nat.one_mul],
      ⟨fun e mem_ => absurd mem_ List.not_mem_nil, fun key _ => ?_⟩⟩
    have sound : Sound 10 (k + 1) (s.1, ⟨10, k + 1, 1 <<< (k + 1), fun _ => Option.none⟩) [] :=
      ⟨⟨fun _ => Or.inl ⟨rfl, rfl⟩, inv.bounded⟩, rfl, rfl, by rw [Nat.shiftLeft_eq, Nat.one_mul]⟩
    exact sound.misses ⟨by decide, by omega, by omega⟩ (by omega) List.not_mem_nil

theorem hotringRehash_iff_empty_one :
    ∃ s, run nbits 1 [] = some s ∧ ∃ s', hotringRehash s.1 s.2 = some s' ∧ s'.2.size = 4 := by
  obtain ⟨s, ran, iff⟩ := hotringRehash_iff_empty 1 (by decide) (by decide) []
  obtain ⟨s', returned, size, _⟩ := iff.mpr rfl
  exact ⟨s, ran, s', returned, size⟩

/-- A table with the key 5: both lookups of the first turn give no node before, and the write
through `ring1_tail` is one through `NULL`. -/
theorem rehash_writes_through_null :
    ((run nbits 1 [.insert 5 1]).bind fun s => hotringRehashInit s.1 s.2).isSome ∧
    ((run nbits 1 [.insert 5 1]).bind fun s => (hotringRehashInit s.1 s.2).bind fun r =>
      (hotringGet r.1 r.2.2 (halfKey 1 0)).map fun got => (got.2.2.ret, got.2.2.prevp)) =
        some (.accessHot, none) ∧
    ((run nbits 1 [.insert 5 1]).bind fun s => (hotringRehash s.1 s.2).map fun r => r.2.size) =
      none := by
  refine ⟨by decide +kernel, by decide +kernel, by decide +kernel⟩

end Xcache.HotRing
