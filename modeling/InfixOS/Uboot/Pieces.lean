import InfixOS.Uboot.Mapping
import InfixOS.Uboot.Transfer

/-! The loop over the slices, with numbers in place of words. It moves one piece for
every slice it enters; taken together that is one copy, of `run` blocks, from or to
the places that `spot` tells. -/
namespace Uboot

instance (bms : Slice w) : Decidable bms.Fits := inferInstanceAs (Decidable (_ < _))

/-- Where the `j`th block of a slice's memory or device is. -/
def Slice.place (bms : Slice w) (j : Nat) : Place w :=
  match bms.target with
  | .mem addr _ => .mem (addr + BitVec.ofNat w (j * blksz))
  | .linear blk lblknr => .disk blk (lblknr + BitVec.ofNat w j)

/-- Where block `n` of a blkmap is when it is in this slice. -/
def Slice.backing (bms : Slice w) (n : Nat) : Place w := bms.place (n - bms.extent.first)

/-- The loop enters a slice: a range that reaches the end of the block numbers holds
nothing for `blkmap_slice_contains`. -/
def Slice.Entered (bms : Slice w) (p : Nat) : Prop := bms.Fits ∧ bms.extent.Holds p

instance (bms : Slice w) (p : Nat) : Decidable (bms.Entered p) := inferInstanceAs (Decidable (_ ∧ _))

/-- The blocks asked of a slice with `n` to go. -/
def Slice.share (bms : Slice w) (n : Nat) : Nat := min n bms.extent.count

/-- How many blocks are moved from block `p` on, with `n` to go. -/
def run : List (Slice w) → (p n : Nat) → Nat
  | [], _, _ => 0
  | bms :: rest, p, n =>
    if bms.Entered p then bms.share n + run rest (p + bms.share n) (n - bms.share n) else run rest p n

/-- Where the `i`th of them is. -/
def spot : List (Slice w) → (p n i : Nat) → Place w
  | [], _, _, _ => .mem 0
  | bms :: rest, p, n, i =>
    if bms.Entered p then
      if i < bms.share n then bms.place (p - bms.extent.first + i)
      else spot rest (p + bms.share n) (n - bms.share n) (i - bms.share n)
    else spot rest p n i

/-- The calls made. -/
def asks : List (Slice w) → (p n : Nat) → List (Ask w)
  | [], _, _ => []
  | bms :: rest, p, n =>
    if bms.Entered p then
      ⟨bms, BitVec.ofNat w (p - bms.extent.first), BitVec.ofNat w (bms.share n)⟩ ::
        asks rest (p + bms.share n) (n - bms.share n)
    else asks rest p n

section Equations
variable {bms : Slice w} {rest : List (Slice w)} {p n : Nat}

theorem run_entered (entered : bms.Entered p) :
    run (bms :: rest) p n = bms.share n + run rest (p + bms.share n) (n - bms.share n) := by
  rw [run, if_pos entered]

theorem run_skipped (skipped : ¬bms.Entered p) : run (bms :: rest) p n = run rest p n := by
  rw [run, if_neg skipped]

theorem spot_entered (entered : bms.Entered p) (early : i < bms.share n) :
    spot (bms :: rest) p n i = bms.place (p - bms.extent.first + i) := by
  rw [spot, if_pos entered, if_pos early]

theorem spot_later (entered : bms.Entered p) (i : Nat) :
    spot (bms :: rest) p n (bms.share n + i) = spot rest (p + bms.share n) (n - bms.share n) i := by
  rw [spot, if_pos entered, if_neg (by omega), Nat.add_sub_cancel_left]

theorem spot_skipped (skipped : ¬bms.Entered p) (i : Nat) : spot (bms :: rest) p n i = spot rest p n i := by
  rw [spot, if_neg skipped]

theorem share_le (bms : Slice w) (n : Nat) : bms.share n ≤ n := Nat.min_le_left _ _

theorem run_le (slices : List (Slice w)) (p n : Nat) : run slices p n ≤ n := by
  induction slices generalizing p n with
  | nil => exact Nat.zero_le n
  | cons bms rest ih =>
    by_cases entered : bms.Entered p
    · have := ih (p + bms.share n) (n - bms.share n)
      have := share_le bms n
      rw [run_entered entered]
      omega
    · rw [run_skipped entered]
      exact ih p n

theorem run_eq_zero {slices : List (Slice w)} (skipped : ∀ bms ∈ slices, ¬bms.Entered p) : run slices p n = 0 := by
  induction slices with
  | nil => rfl
  | cons bms rest ih =>
    rw [run_skipped (skipped bms List.mem_cons_self)]
    exact ih fun other member => skipped other (List.mem_cons_of_mem _ member)

end Equations

/-- `blkmap_slice_contains` in numbers. -/
theorem contains_eq_entered {bms : Slice w} (inRange : bms.extent.stop ≤ 2 ^ w) (blknr : Lba w) :
    bms.contains blknr = true ↔ bms.Entered blknr.toNat := by
  by_cases fits : bms.Fits
  · rw [fits.contains_iff]
    exact ⟨fun holds => ⟨fits, holds⟩, And.right⟩
  · -- the range ends with the last block number, and its end has become 0
    have stop : bms.blknr.toNat + bms.blkcnt.toNat = 2 ^ w := Nat.le_antisymm inRange (Nat.le_of_not_lt fits)
    have zero : (bms.blknr + bms.blkcnt).toNat = 0 := by
      rw [BitVec.toNat_add, stop, Nat.mod_self]
    simp [Slice.contains, Slice.Entered, fits, BitVec.lt_def, zero]

/-- The slices of a blkmap: sorted and disjoint ranges of block numbers. -/
structure Proper (slices : List (Slice w)) : Prop where
  layout : Extent.Layout Slice.extent slices
  inRange : ∀ bms ∈ slices, bms.extent.stop ≤ 2 ^ w

theorem Proper.tail {bms : Slice w} {rest : List (Slice w)} (proper : Proper (bms :: rest)) : Proper rest where
  layout := proper.layout.tail
  inRange := fun other member => proper.inRange other (List.mem_cons_of_mem _ member)

/-- An operation on slices that copies whole blocks as long as the places are good
ones. -/
structure Copies {σ : Type} (good : Place w → Prop)
    (op : Slice w → (blknr blkcnt : Lba w) → Nat → σ → Lba w × σ)
    (copy : σ → (offset : Nat) → (Nat → Place w) → Nat → σ) : Prop where
  none : ∀ s offset place, copy s offset place 0 = s
  append : ∀ s offset place k m,
    copy (copy s offset place k) (offset + k) (fun i => place (k + i)) m = copy s offset place (k + m)
  congr : ∀ s offset place place' k, (∀ i < k, place i = place' i) → copy s offset place k = copy s offset place' k
  full : ∀ bms blknr blkcnt offset s, (∀ i < blkcnt.toNat, good (bms.place (blknr.toNat + i))) →
    op bms blknr blkcnt offset s = (blkcnt, copy s offset (fun i => bms.place (blknr.toNat + i)) blkcnt.toNat)

/-- A word stands for a position. After a copy past the end of the block numbers it
stands for none that matters. -/
def Stands (slices : List (Slice w)) (blknr : Lba w) (p : Nat) : Prop :=
  blknr.toNat = p ∨ (2 ^ w ≤ p ∧ ∀ bms ∈ slices, bms.contains blknr = false)

theorem Stands.contains_iff {bms : Slice w} {rest : List (Slice w)} (proper : Proper (bms :: rest))
    (stands : Stands (bms :: rest) blknr p) : bms.contains blknr = true ↔ bms.Entered p := by
  cases stands with
  | inl same => exact same ▸ contains_eq_entered (proper.inRange bms List.mem_cons_self) blknr
  | inr beyond =>
    have out := beyond.2 bms List.mem_cons_self
    refine ⟨fun inside => absurd inside (by simp [out]), fun entered => ?_⟩
    have := entered.1
    have := entered.2.2
    have := beyond.1
    rw [Slice.Fits] at *
    omega

theorem Stands.tail {bms : Slice w} {rest : List (Slice w)} (stands : Stands (bms :: rest) blknr p) :
    Stands rest blknr p :=
  stands.imp id fun beyond => ⟨beyond.1, fun other member => beyond.2 other (List.mem_cons_of_mem _ member)⟩

/-- After a piece the word still stands for the position. -/
theorem Stands.advance {bms : Slice w} {rest : List (Slice w)} {blknr cnt : Lba w} (proper : Proper (bms :: rest))
    (same : blknr.toNat = p) (entered : bms.Entered p) (share : cnt.toNat = bms.share n) :
    Stands rest (blknr + cnt) (p + bms.share n) := by
  have fits := entered.1
  have holds := entered.2
  by_cases below : p + bms.share n < 2 ^ w
  · left
    rw [BitVec.toNat_add_of_lt (by omega), same, share]
  · refine .inr ⟨by omega, fun other member => ?_⟩
    -- it has wrapped around to before where it was, in this slice or below it
    have bound := cnt.isLt
    have wrapped : (blknr + cnt).toNat = p + bms.share n - 2 ^ w := by
      rw [BitVec.toNat_add, same, share, Nat.mod_eq_sub_mod (by omega)]
      exact Nat.mod_eq_of_lt (by omega)
    rw [← Bool.not_eq_true, contains_eq_entered (proper.tail.inRange other member), wrapped]
    intro inside
    have sorted := (List.pairwise_cons.mp proper.layout.sorted).1 other member
    have first := inside.2.1
    have last := holds.2
    refine proper.layout.head_not_holds member inside.2 ⟨Nat.le_trans sorted first, ?_⟩
    omega

section Loop
variable {σ : Type} {good : Place w → Prop} {op : Slice w → (blknr blkcnt : Lba w) → Nat → σ → Lba w × σ}
  {copy : σ → (offset : Nat) → (Nat → Place w) → Nat → σ}

theorem Cursor.ask_eq {c : Cursor w} {bms : Slice w} (same : c.blknr.toNat = p) (holds : bms.extent.Holds p) :
    (c.ask bms).blknr.toNat = p - bms.extent.first ∧ (c.ask bms).blkcnt.toNat = bms.share c.blkcnt.toNat := by
  constructor
  · change (c.blknr - bms.blknr).toNat = _
    rw [BitVec.toNat_sub_of_le (by rw [BitVec.le_def, same]; exact holds.1), same]
    rfl
  · change (if c.blkcnt < bms.blkcnt then c.blkcnt else bms.blkcnt).toNat = min c.blkcnt.toNat bms.blkcnt.toNat
    split
    · rename_i less
      rw [BitVec.lt_def] at less
      omega
    · rename_i more
      rw [BitVec.lt_def] at more
      omega

/-- The loop is one copy. -/
theorem Copies.transfer (copies : Copies good op copy) {slices : List (Slice w)} (proper : Proper slices)
    {c : Cursor w} (stands : Stands slices c.blknr p) (todo : c.blkcnt.toNat = n)
    (room : c.total.toNat + n < 2 ^ w) (places : ∀ i < run slices p n, good (spot slices p n i)) (s : σ) :
    (Uboot.transfer op slices c s).1.total.toNat = c.total.toNat + run slices p n ∧
    (Uboot.transfer op slices c s).1.asked = c.asked ++ asks slices p n ∧
    (Uboot.transfer op slices c s).2 = copy s c.buffer (spot slices p n) (run slices p n) := by
  induction slices generalizing c p n s with
  | nil => exact ⟨rfl, (List.append_nil _).symm, (copies.none s _ _).symm⟩
  | cons bms rest ih =>
    have contains := stands.contains_iff proper
    by_cases entered : bms.Entered p
    · have same : c.blknr.toNat = p := by
        cases stands with
        | inl same => exact same
        | inr beyond => exact absurd (contains.mpr entered) (by simp [beyond.2 bms List.mem_cons_self])
      obtain ⟨nr, cnt⟩ := c.ask_eq same entered.2
      rw [todo] at cnt
      have share := share_le bms n
      have here (i : Nat) (early : i < bms.share n) : spot (bms :: rest) p n i = bms.place (p - bms.extent.first + i) :=
        spot_entered entered early
      have all : run (bms :: rest) p n = bms.share n + run rest (p + bms.share n) (n - bms.share n) :=
        run_entered entered
      have answer : op bms (c.ask bms).blknr (c.ask bms).blkcnt c.buffer s =
          ((c.ask bms).blkcnt, copy s c.buffer (spot (bms :: rest) p n) (bms.share n)) := by
        rw [copies.full, cnt, nr]
        · refine congrArg (Prod.mk _) (copies.congr _ _ _ _ _ fun i early => ?_)
          rw [here i early]
        · intro i early
          rw [cnt] at early
          rw [nr, ← here i early]
          exact places i (by omega)
      have step : Uboot.transfer op (bms :: rest) c s = Uboot.transfer op rest (c.advance (c.ask bms) (c.ask bms).blkcnt)
          (copy s c.buffer (spot (bms :: rest) p n) (bms.share n)) := by
        rw [Uboot.transfer, if_pos (contains.mpr entered)]
        simp only [answer]
      have total : (c.total + (c.ask bms).blkcnt).toNat = c.total.toNat + bms.share n := by
        rw [BitVec.toNat_add_of_lt (by omega), cnt]
      have left : (c.blkcnt - (c.ask bms).blkcnt).toNat = n - bms.share n := by
        rw [BitVec.toNat_sub_of_le (by rw [BitVec.le_def]; omega), todo, cnt]
      have others (i : Nat) (inside : i < run rest (p + bms.share n) (n - bms.share n)) :
          good (spot rest (p + bms.share n) (n - bms.share n) i) := by
        rw [← spot_later entered]
        exact places _ (by omega)
      obtain ⟨count, calls, result⟩ := ih proper.tail (c := c.advance (c.ask bms) (c.ask bms).blkcnt)
        (Stands.advance proper same entered cnt) left
        (by change (c.total + (c.ask bms).blkcnt).toNat + _ < _; omega) others
        (copy s c.buffer (spot (bms :: rest) p n) (bms.share n))
      rw [step]
      refine ⟨?_, ?_, ?_⟩
      · rw [count, all]
        change (c.total + (c.ask bms).blkcnt).toNat + _ = _
        omega
      · have request : c.ask bms = ⟨bms, BitVec.ofNat w (p - bms.extent.first), BitVec.ofNat w (bms.share n)⟩ := by
          rw [← nr, ← cnt, BitVec.ofNat_toNat, BitVec.ofNat_toNat, BitVec.setWidth_eq, BitVec.setWidth_eq]
          rfl
        rw [calls, asks, if_pos entered, ← request]
        exact List.append_assoc _ _ _
      · rw [result, all, ← copies.append]
        change copy _ (c.buffer + (c.ask bms).blkcnt.toNat) _ _ = _
        rw [cnt]
        exact copies.congr _ _ _ _ _ fun i _ => (spot_later entered i).symm
    · have step : Uboot.transfer op (bms :: rest) c s = Uboot.transfer op rest c s := by
        rw [Uboot.transfer, if_neg fun inside => entered (contains.mp inside)]
      have spots : spot (bms :: rest) p n = spot rest p n := funext fun i => spot_skipped entered i
      rw [step, run_skipped entered, spots, asks, if_neg entered]
      refine ih proper.tail stands.tail todo room (fun i inside => ?_) s
      rw [← spots]
      exact places i (by rwa [run_skipped entered])

end Loop
end Uboot
